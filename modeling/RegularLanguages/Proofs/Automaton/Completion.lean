import RegularLanguages.Automaton.Completion
import RegularLanguages.Proofs.Automaton.Determinization

/-!
# Completing with a sink

A deterministic automaton that misses transitions gets one new state, which is never left and is
not final (`AddsSink`). So no state gains or loses a word, and every state has a transition on
every symbol. An automaton without gaps is not touched.

Results:
* `withSink_cases`: what completion does to an automaton.
* `withSink_total`: a valid deterministic automaton becomes total.
* **`withSink_languageFrom`**: no state changes its meaning.
* `complete_total`, `complete_language`: the same with determinization in front where needed.
* **`isCompletion_complete`**: what completion promises, and that it adds at most the sink to a
  deterministic automaton.
-/

namespace RegularLanguages

namespace Automaton

variable {A B : Automaton} {sink : State}

theorem mem_gaps {q : State} {c : Char} :
    (q, c) ∈ A.gaps ↔ q ∈ A.states ∧ c ∈ A.alphabet ∧ ∀ p, ⟨q, .symbol c, p⟩ ∉ A.edges := by
  simp only [gaps, List.mem_flatMap, List.mem_map, List.mem_filter, Bool.not_eq_true',
    OrderedSet.mem_toList, Prod.mk.injEq]
  constructor
  · rintro ⟨q', hq, c', ⟨hc, hm⟩, rfl, rfl⟩
    refine ⟨hq, hc, fun p he => ?_⟩
    rw [hasMove_iff.mpr ⟨p, he⟩] at hm
    exact absurd hm (by simp)
  · rintro ⟨hq, hc, hn⟩
    refine ⟨q, hq, c, ⟨hc, ?_⟩, rfl, rfl⟩
    rw [← Bool.not_eq_true, hasMove_iff]
    rintro ⟨p, he⟩
    exact hn p he

theorem complete_of_gaps_eq_nil (h : A.gaps = []) : A.Complete := by
  intro q hq c hc
  by_contra hn
  have hgap : (q, c) ∈ A.gaps := mem_gaps.mpr ⟨hq, hc, fun p he => hn ⟨p, he⟩⟩
  rw [h] at hgap
  exact absurd hgap List.not_mem_nil

/-- `B` is `A` with one more state, to which all missing transitions and its own lead. -/
structure AddsSink (A B : Automaton) (sink : State) : Prop where
  sink_not_mem : sink ∉ A.states
  exists_gap : ∃ q c, (q, c) ∈ A.gaps
  mem_states : ∀ q, q ∈ B.states ↔ q = sink ∨ q ∈ A.states
  alphabet_eq : B.alphabet = A.alphabet
  mem_edges : ∀ e, e ∈ B.edges ↔ (∃ q c, (q, c) ∈ A.gaps ∧ e = ⟨q, .symbol c, sink⟩) ∨
    (∃ c ∈ A.alphabet, e = ⟨sink, .symbol c, sink⟩) ∨ e ∈ A.edges
  initial_eq : B.initial = A.initial
  finals_eq : B.finals = A.finals

/-- The name of the sink that completion adds. -/
def sinkName (A : Automaton) : State := ((FreshNames.avoiding A.states.toList).claim ⟨"sink"⟩).1

theorem withSink_of_gaps_eq_nil (h : A.gaps = []) : A.withSink = A := by
  simp [withSink, h]

theorem addsSink_withSink (h : A.gaps ≠ []) : A.AddsSink A.withSink A.sinkName := by
  have hw : A.withSink =
      { A with
        states := A.states.insert A.sinkName
        edges := .ofList (A.gaps.map fun g => ⟨g.1, .symbol g.2, A.sinkName⟩) ∪
          .ofList (A.alphabet.toList.map fun c => ⟨A.sinkName, .symbol c, A.sinkName⟩) ∪
            A.edges } := by
    rw [withSink, if_neg (by simpa using h)]
    rfl
  obtain ⟨g, hg⟩ := List.exists_mem_of_ne_nil _ h
  rw [hw]
  refine ⟨FreshNames.claim_avoiding_not_mem _ _, ⟨g.1, g.2, hg⟩, fun q => ?_, rfl, fun e => ?_,
    rfl, rfl⟩
  · exact OrderedSet.mem_insert
  · simp only [OrderedSet.mem_union, OrderedSet.mem_ofList, List.mem_map, Prod.exists,
      OrderedSet.mem_toList, or_assoc, eq_comm (b := e)]

/-- **Completion** leaves a complete automaton as it is, and adds a sink to any other one. -/
theorem sinkName_of_not_mem (h : ⟨"sink"⟩ ∉ A.states) : A.sinkName = ⟨"sink"⟩ :=
  FreshNames.claim_eq_self
    (mt FreshNames.mem_used_avoiding.mp (mt OrderedSet.mem_toList.mp h))

theorem withSink_cases (A : Automaton) :
    (A.Complete ∧ A.withSink = A) ∨ ∃ sink, A.AddsSink A.withSink sink := by
  by_cases h : A.gaps = []
  · exact Or.inl ⟨complete_of_gaps_eq_nil h, withSink_of_gaps_eq_nil h⟩
  · exact Or.inr ⟨A.sinkName, addsSink_withSink h⟩

namespace AddsSink

theorem subset_states (h : A.AddsSink B sink) {q : State} (hq : q ∈ A.states) : q ∈ B.states :=
  (h.mem_states q).mpr (Or.inr hq)

theorem sink_mem (h : A.AddsSink B sink) : sink ∈ B.states := (h.mem_states sink).mpr (Or.inl rfl)

theorem sink_not_mem_finals (h : A.AddsSink B sink) (hA : A.Valid) : sink ∉ B.finals :=
  fun hf => h.sink_not_mem (hA.final_mem sink (h.finals_eq ▸ hf))

/-- Only what is not complete gets a sink. -/
theorem not_complete (h : A.AddsSink B sink) : ¬ A.Complete := by
  intro hc
  obtain ⟨q, c, hgap⟩ := h.exists_gap
  obtain ⟨hq, hmem, hmissing⟩ := mem_gaps.mp hgap
  obtain ⟨p, he⟩ := hc q hq c hmem
  exact hmissing p he

theorem valid (h : A.AddsSink B sink) (hA : A.Valid) : B.Valid where
  initial_mem q hq := h.subset_states (hA.initial_mem q (h.initial_eq ▸ hq))
  final_mem q hq := h.subset_states (hA.final_mem q (h.finals_eq ▸ hq))
  source_mem e he := by
    rcases (h.mem_edges e).mp he with ⟨q, c, hg, rfl⟩ | ⟨c, hc, rfl⟩ | he
    · exact h.subset_states (mem_gaps.mp hg).1
    · exact h.sink_mem
    · exact h.subset_states (hA.source_mem e he)
  target_mem e he := by
    rcases (h.mem_edges e).mp he with ⟨q, c, hg, rfl⟩ | ⟨c, hc, rfl⟩ | he
    · exact h.sink_mem
    · exact h.sink_mem
    · exact h.subset_states (hA.target_mem e he)
  label_mem e he c hc := by
    rw [h.alphabet_eq]
    rcases (h.mem_edges e).mp he with ⟨q, d, hg, rfl⟩ | ⟨d, hd, rfl⟩ | he
    · cases hc
      exact (mem_gaps.mp hg).2.1
    · cases hc
      exact hd
    · exact hA.label_mem e he c hc
  epsilon_not_mem := h.alphabet_eq ▸ hA.epsilon_not_mem

theorem ne_sink_of_mem (h : A.AddsSink B sink) {q : State} (hq : q ∈ A.states) : q ≠ sink :=
  fun he => h.sink_not_mem (he ▸ hq)

/-- A transition of the new automaton is an old one, or it leads on a symbol into the sink from
where there was none. -/
theorem edge_cases (h : A.AddsSink B sink) (hA : A.Valid) {p q : State} {a : Label}
    (he : ⟨p, a, q⟩ ∈ B.edges) :
    ⟨p, a, q⟩ ∈ A.edges ∨ (q = sink ∧ a ≠ .epsilon ∧ ∀ r, ⟨p, a, r⟩ ∉ A.edges) := by
  rcases (h.mem_edges _).mp he with ⟨r, c, hg, he⟩ | ⟨c, _, he⟩ | he
  · obtain ⟨rfl, rfl, rfl⟩ := Edge.mk.inj he
    exact Or.inr ⟨rfl, by simp, (mem_gaps.mp hg).2.2⟩
  · obtain ⟨rfl, rfl, rfl⟩ := Edge.mk.inj he
    exact Or.inr ⟨rfl, by simp, fun r hr => h.sink_not_mem (hA.source_mem _ hr)⟩
  · exact Or.inl he

theorem deterministic (h : A.AddsSink B sink) (hA : A.Valid) (hAd : A.Deterministic) :
    B.Deterministic := by
  refine ⟨fun p q he => ?_, fun {p a q q'} he he' => ?_⟩
  · rcases h.edge_cases hA he with he | ⟨_, ha, _⟩
    · exact hAd.not_epsilon p q he
    · exact ha rfl
  · rcases h.edge_cases hA he with he | ⟨hq, _, hn⟩
    · rcases h.edge_cases hA he' with he' | ⟨_, _, hn'⟩
      · exact hAd.target_unique he he'
      · exact absurd he (hn' q)
    · rcases h.edge_cases hA he' with he' | ⟨hq', _, _⟩
      · exact absurd he' (hn q')
      · exact hq.trans hq'.symm

theorem complete (h : A.AddsSink B sink) : B.Complete := by
  intro q hq c hc
  rw [h.alphabet_eq] at hc
  rcases (h.mem_states q).mp hq with rfl | hq
  · exact ⟨q, (h.mem_edges _).mpr (Or.inr (Or.inl ⟨c, hc, rfl⟩))⟩
  · by_cases hp : ∃ p, ⟨q, .symbol c, p⟩ ∈ A.edges
    · obtain ⟨p, he⟩ := hp
      exact ⟨p, (h.mem_edges _).mpr (Or.inr (Or.inr he))⟩
    · have hg : (q, c) ∈ A.gaps := mem_gaps.mpr ⟨hq, hc, fun p he => hp ⟨p, he⟩⟩
      exact ⟨sink, (h.mem_edges _).mpr (Or.inl ⟨q, c, hg, rfl⟩)⟩

/-- The sink is not left. -/
theorem target_eq_sink (h : A.AddsSink B sink) (hA : A.Valid) :
    ∀ e ∈ B.edges, e.source = sink → e.target = sink := by
  rintro ⟨p, a, q⟩ he rfl
  rcases h.edge_cases hA he with he | ⟨hq, _, _⟩
  · exact absurd (hA.source_mem _ he) h.sink_not_mem
  · exact hq

theorem eq_sink_of_path (h : A.AddsSink B sink) (hA : A.Valid) {p q : State} {w : Word}
    (hp : B.Path p w q) : p = sink → q = sink :=
  hp.invariant (P := (· = sink)) (h.target_eq_sink hA)

theorem not_languageFrom_sink (h : A.AddsSink B sink) (hA : A.Valid) (w : Word) :
    ¬ B.languageFrom sink w := by
  rintro ⟨q, hq, hp⟩
  exact h.sink_not_mem_finals hA (h.eq_sink_of_path hA hp rfl ▸ hq)

/-- A path that does not end in the sink never meets it. -/
theorem path_of_ne (h : A.AddsSink B sink) (hA : A.Valid) {p q : State} {w : Word}
    (hp : B.Path p w q) (hq : q ≠ sink) : A.Path p w q := by
  induction hp with
  | refl => exact .refl _
  | epsilon he hr ih =>
    rcases h.edge_cases hA he with he | ⟨ht, _, _⟩
    · exact .epsilon he (ih hq)
    · exact absurd (h.eq_sink_of_path hA hr ht) hq
  | symbol he hr ih =>
    rcases h.edge_cases hA he with he | ⟨ht, _, _⟩
    · exact .symbol he (ih hq)
    · exact absurd (h.eq_sink_of_path hA hr ht) hq

theorem path_mono (h : A.AddsSink B sink) {p q : State} {w : Word} (hp : A.Path p w q) :
    B.Path p w q :=
  Automaton.path_mono (fun e he => (h.mem_edges e).mpr (Or.inr (Or.inr he))) hp

theorem languageFrom_iff (h : A.AddsSink B sink) (hA : A.Valid) {p : State} {w : Word} :
    B.languageFrom p w ↔ A.languageFrom p w := by
  unfold languageFrom
  rw [h.finals_eq]
  refine exists_congr fun q => and_congr_right fun hq => ⟨fun hp => ?_, h.path_mono⟩
  exact h.path_of_ne hA hp (h.ne_sink_of_mem (hA.final_mem q hq))

theorem accessible (h : A.AddsSink B sink) (hacc : ∀ q ∈ A.states, A.Accessible q) {q : State}
    (hq : q ∈ B.states) : B.Accessible q := by
  have hold : ∀ q ∈ A.states, B.Accessible q := by
    intro q hq
    refine (hacc q hq).map (f := id) ?_ fun _ _ _ => h.path_mono
    rw [h.initial_eq, Option.map_id]
    rfl
  rcases (h.mem_states q).mp hq with rfl | hq
  · obtain ⟨p, c, hg⟩ := h.exists_gap
    exact (hold p (mem_gaps.mp hg).1).path
      (.symbol ((h.mem_edges _).mpr (Or.inl ⟨p, c, hg, rfl⟩)) (.refl _))
  · exact hold q hq

end AddsSink

/-! ## Completion of a deterministic automaton -/

section WithSink

/-- A complete automaton needs no sink. -/
theorem withSink_eq_self (h : A.Complete) : A.withSink = A := by
  rcases withSink_cases A with ⟨-, hw⟩ | ⟨_, hw⟩
  · exact hw
  · exact absurd h hw.not_complete

@[simp] theorem alphabet_withSink (A : Automaton) : A.withSink.alphabet = A.alphabet := by
  rcases withSink_cases A with ⟨_, h⟩ | ⟨_, h⟩
  · rw [h]
  · exact h.alphabet_eq

@[simp] theorem initial_withSink (A : Automaton) : A.withSink.initial = A.initial := by
  rcases withSink_cases A with ⟨_, h⟩ | ⟨_, h⟩
  · rw [h]
  · exact h.initial_eq

theorem mem_states_withSink {q : State} (hq : q ∈ A.states) : q ∈ A.withSink.states := by
  rcases withSink_cases A with ⟨-, h⟩ | ⟨_, h⟩
  · rwa [h]
  · exact h.subset_states hq

theorem withSink_total (hA : A.Valid) (hAd : A.Deterministic) : A.withSink.Total := by
  rcases withSink_cases A with ⟨hc, h⟩ | ⟨_, h⟩
  · rw [h]
    exact ⟨hA, hAd, hc⟩
  · exact ⟨h.valid hA, h.deterministic hA hAd, h.complete⟩

/-- **Completing changes the meaning of no state.** -/
theorem withSink_languageFrom (hA : A.Valid) (p : State) (w : Word) :
    A.withSink.languageFrom p w ↔ A.languageFrom p w := by
  rcases withSink_cases A with ⟨_, h⟩ | ⟨_, h⟩
  · rw [h]
  · exact h.languageFrom_iff hA

theorem withSink_language (hA : A.Valid) (w : Word) : A.withSink.language w ↔ A.language w :=
  language_of_initial_eq (initial_withSink A) fun p _ => withSink_languageFrom hA p w

theorem withSink_accessible (hacc : ∀ q ∈ A.states, A.Accessible q) {q : State}
    (hq : q ∈ A.withSink.states) : A.withSink.Accessible q := by
  rcases withSink_cases A with ⟨_, h⟩ | ⟨_, h⟩
  · rw [h] at hq ⊢
    exact hacc q hq
  · exact h.accessible hacc hq

end WithSink

/-! ## Completion of any automaton -/

theorem complete_of_deterministic (hA : A.Deterministic) : A.complete = A.withSink := by
  rw [Automaton.complete, if_pos (isDeterministic_iff.mpr hA)]

theorem complete_of_not_deterministic (hA : ¬ A.Deterministic) :
    A.complete = A.determinize.withSink := by
  rw [Automaton.complete, if_neg fun h => hA (isDeterministic_iff.mp h)]

theorem complete_total (hA : A.Valid) : A.complete.Total := by
  by_cases hAd : A.Deterministic
  · rw [complete_of_deterministic hAd]
    exact withSink_total hA hAd
  · rw [complete_of_not_deterministic hAd]
    exact withSink_total (determinize_valid hA) (determinize_deterministic hA)

theorem complete_language (hA : A.Valid) (w : Word) : A.complete.language w ↔ A.language w := by
  by_cases hAd : A.Deterministic
  · rw [complete_of_deterministic hAd]
    exact withSink_language hA w
  · rw [complete_of_not_deterministic hAd, withSink_language (determinize_valid hA)]
    exact determinize_language hA w

@[simp] theorem alphabet_complete (A : Automaton) : A.complete.alphabet = A.alphabet := by
  by_cases hAd : A.Deterministic
  · rw [complete_of_deterministic hAd, alphabet_withSink]
  · rw [complete_of_not_deterministic hAd, alphabet_withSink, alphabet_determinize]

theorem complete_eq_self (hA : A.Total) : A.complete = A :=
  (complete_of_deterministic hA.deterministic).trans (withSink_eq_self hA.complete)

/-- `C` has one successor for every state and symbol, and accepts what `A` accepts. It is `A` with
at most a sink if `A` is deterministic. -/
structure IsCompletion (C A : Automaton) : Prop where
  valid : C.Valid
  alphabet : C.alphabet = A.alphabet
  hasEpsilon : C.hasEpsilon = false
  successor : ∀ q ∈ C.states, ∀ c ∈ C.alphabet, ∃ p, C.successor? q c = some p ∧
    ∀ r, ⟨q, .symbol c, r⟩ ∈ C.edges ↔ r = p
  accepts : ∀ w, C.accepts w = A.accepts w
  complete_eq : C.complete = C
  /-- Nothing happens to a complete automaton. Any other one keeps what it has, and gets a state
  that is not final and not left. -/
  sink : A.isDeterministic = true → (A.isComplete = true ∧ C = A) ∨
    (A.isComplete = false ∧ ∃ sink, A.AddsSink C sink ∧ sink ∉ C.finals ∧
      ∀ e ∈ C.edges, e.source = sink → e.target = sink)

/-- **Completing an automaton** makes it total and keeps its language. What is deterministic stays
as it is, up to one state that takes the missing transitions. -/
theorem isCompletion_complete (hA : A.Valid) : A.complete.IsCompletion A where
  valid := (complete_total hA).valid
  alphabet := alphabet_complete A
  hasEpsilon := hasEpsilon_eq_false_iff.mpr (complete_total hA).deterministic.not_epsilon
  successor q hq c hc := by
    have hD := (complete_total hA).deterministic
    obtain ⟨p, he⟩ := (complete_total hA).complete q hq c hc
    refine ⟨p, successor?_of_edge hD he, fun r => ⟨fun hr => hD.target_unique hr he, ?_⟩⟩
    rintro rfl
    exact he
  accepts w := accepts_eq_iff.mpr (complete_language hA w)
  complete_eq := complete_eq_self (complete_total hA)
  sink hAd := by
    rw [complete_of_deterministic (isDeterministic_iff.mp hAd), Bool.eq_false_iff, ne_eq,
      isComplete_iff]
    rcases withSink_cases A with ⟨hc, hw⟩ | ⟨sink, h⟩
    · exact Or.inl ⟨hc, hw⟩
    · exact Or.inr ⟨h.not_complete, sink, h, h.sink_not_mem_finals hA, h.target_eq_sink hA⟩

/-- An automaton whose states have the first names that its sink could have. The only transition
is an `a` from `sink` to `sink'1`. -/
def namedLikeSinks : Automaton where
  states := .ofList [⟨"sink"⟩, ⟨"sink'1"⟩]
  alphabet := .ofList ['a']
  edges := .ofList [⟨⟨"sink"⟩, .symbol 'a', ⟨"sink'1"⟩⟩]
  initial := some ⟨"sink"⟩
  finals := .ofList [⟨"sink'1"⟩]

/-- A third state takes the `a` from `sink'1`. -/
theorem complete_namedLikeSinks : ∃ sink, sink ≠ ⟨"sink"⟩ ∧ sink ≠ ⟨"sink'1"⟩ ∧
    namedLikeSinks.complete.successor? ⟨"sink"⟩ 'a' = some ⟨"sink'1"⟩ ∧
    namedLikeSinks.complete.successor? ⟨"sink'1"⟩ 'a' = some sink := by
  have h := isCompletion_complete (A := namedLikeSinks) (by decide)
  rcases h.sink (by decide) with ⟨hc, -⟩ | ⟨-, sink, hs, -, -⟩
  · exact absurd hc (by decide)
  · have hold (q : State) (hq : q ∈ namedLikeSinks.states) : q ≠ sink := hs.ne_sink_of_mem hq
    have hnext (q p : State) (hq : q ∈ namedLikeSinks.states)
        (he : ⟨q, .symbol 'a', p⟩ ∈ namedLikeSinks.complete.edges) :
        namedLikeSinks.complete.successor? q 'a' = some p := by
      obtain ⟨r, hr, hedges⟩ := h.successor q (hs.subset_states hq) 'a' (h.alphabet ▸ by decide)
      rwa [(hedges p).mp he]
    refine ⟨sink, (hold _ (by decide)).symm, (hold _ (by decide)).symm,
      hnext _ _ (by decide) ?kept, hnext _ _ (by decide) ?missing⟩
    case kept => exact (hs.mem_edges _).mpr (Or.inr (Or.inr (by decide)))
    case missing => exact (hs.mem_edges _).mpr (Or.inl ⟨_, _, by decide, rfl⟩)

end Automaton

end RegularLanguages
