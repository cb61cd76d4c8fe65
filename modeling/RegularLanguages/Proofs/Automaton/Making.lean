import RegularLanguages.Automaton.Construction
import RegularLanguages.Proofs.Automaton.Completion
import RegularLanguages.Proofs.Automaton.Epsilon
import RegularLanguages.Proofs.Automaton.Merging
import RegularLanguages.Proofs.Automaton.Minimization
import RegularLanguages.Proofs.Automaton.Rational
import RegularLanguages.Proofs.Automaton.Writes

/-!
# The writes of a construction make its automaton

Each construction is given twice: by the automaton that it stands for, and by the writes that
make it. Here they are compared as sets: the transitions, final and initial states that are
written are those of the automaton, and each of its states is mentioned by some write. In which
order the writes come does not matter.

Results:
* `makes_ofParts`, `makes_rejecting`: given parts, a single state.
* **`makes_unfolding`**: the writes of a search make its picture.
* `makes_completing`, `makes_removing`, `makes_merging`: completion, removal of transitions on the
  empty word, merging of states.
* `makes_absorbing`, `makes_uniting`, `makes_chaining`, `makes_repeating`: the rational
  operations.
-/

namespace RegularLanguages

namespace Write

variable {q : State} {e : Edge} {states finals : List State} {edges : List Edge}
  {initial : Option State} {A : Automaton}

/-! ## What is written -/

@[simp] theorem state_mem_ofParts :
    .state q ∈ ofParts states edges finals initial ↔ q ∈ states := by
  simp [ofParts]

@[simp] theorem link_mem_ofParts : .link e ∈ ofParts states edges finals initial ↔ e ∈ edges := by
  simp [ofParts]

@[simp] theorem final_mem_ofParts :
    .final q ∈ ofParts states edges finals initial ↔ q ∈ finals := by
  simp [ofParts]

@[simp] theorem initial_mem_ofParts :
    .initial q ∈ ofParts states edges finals initial ↔ initial = some q := by
  simp [ofParts]

section Unfolding

variable {σ : Type} [BEq σ] [Hashable σ] {moves : σ → List (Char × σ)} {title : σ → State}
  {accepting : σ → Bool} {fuel : Nat} {start : σ} {alphabet : OrderedSet Char}

theorem state_not_mem_unfolding : .state q ∉ unfolding moves title accepting fuel start := by
  simp [unfolding]

theorem link_mem_unfolding : .link e ∈ unfolding moves title accepting fuel start ↔
    e ∈ (Automaton.unfold alphabet moves title accepting fuel start).edges := by
  simp [unfolding, Automaton.unfold]

theorem final_mem_unfolding : .final q ∈ unfolding moves title accepting fuel start ↔
    q ∈ (Automaton.unfold alphabet moves title accepting fuel start).finals := by
  simp [unfolding, Automaton.unfold]

theorem initial_mem_unfolding : .initial q ∈ unfolding moves title accepting fuel start ↔
    some q = (Automaton.unfold alphabet moves title accepting fuel start).initial := by
  simp [unfolding, Automaton.unfold]

end Unfolding

theorem state_mem_removing : .state q ∈ removing A ↔ q ∈ A.states := by
  simp [removing, Automaton.epsilonClosures, OrderedSet.mem_toList]

theorem link_mem_removing : .link e ∈ removing A ↔ e ∈ A.removeEpsilon.edges := by
  rw [Automaton.mem_edges_removeEpsilon]
  simp [removing, Automaton.epsilonClosures, OrderedSet.mem_toList, Automaton.epsilonMoves]

theorem final_mem_removing : .final q ∈ removing A ↔ q ∈ A.removeEpsilon.finals := by
  rw [Automaton.mem_finals_removeEpsilon]
  simp [removing, Automaton.epsilonClosures, OrderedSet.mem_toList]

theorem initial_mem_removing : .initial q ∈ removing A ↔ A.removeEpsilon.initial = some q := by
  simp [removing, Automaton.epsilonClosures, Automaton.removeEpsilon]

theorem state_mem_merging : .state q ∈ merging A ↔ q ∈ A.merged.states := by
  simp [merging, Automaton.merged]

theorem link_mem_merging : .link e ∈ merging A ↔ e ∈ A.merged.edges := by
  simp [merging, Automaton.merged, OrderedSet.mem_toList]

theorem final_mem_merging : .final q ∈ merging A ↔ q ∈ A.merged.finals := by
  simp [merging, Automaton.merged]

theorem initial_mem_merging : .initial q ∈ merging A ↔ A.merged.initial = some q := by
  simp [merging, Automaton.merged]

theorem mem_absorbing {w : Write} : w ∈ absorbing A ↔
    (∃ q ∈ A.states, .state q = w) ∨ ∃ e ∈ A.edges, .link e = w := by
  simp [absorbing, OrderedSet.mem_toList]

end Write

namespace Automaton

variable {A B : Automaton} {alphabet : OrderedSet Char}

/-! ## Parts -/

/-- The parts of an automaton make it. -/
theorem makes_ofParts {states finals : List State} {edges : List Edge}
    (hstates : ∀ q ∈ states, q ∈ B.states)
    (hmentioned : ∀ q ∈ B.states, q ∈ states ∨ ∃ e ∈ edges, e.source = q)
    (hedges : ∀ e, e ∈ B.edges ↔ e ∈ edges) (hfinals : ∀ q, q ∈ B.finals ↔ q ∈ finals) :
    Makes (Write.ofParts states edges finals B.initial) (void B.alphabet) B := by
  refine makes_of_void ?_ ?_ ?_ ?_ ?_
  · exact fun q hq => hstates q (Write.state_mem_ofParts.mp hq)
  · intro q hq
    rcases hmentioned q hq with hq | ⟨e, he, rfl⟩
    · exact ⟨.state q, Write.state_mem_ofParts.mpr hq, List.mem_singleton_self q⟩
    · exact ⟨.link e, Write.link_mem_ofParts.mpr he,
        List.mem_cons_of_mem _ (List.mem_singleton_self _)⟩
  · exact fun e => (hedges e).trans Write.link_mem_ofParts.symm
  · exact fun q => (hfinals q).trans Write.final_mem_ofParts.symm
  · exact fun q => Write.initial_mem_ofParts.symm

/-- An automaton whose parts are given as lists is made by writing these. -/
theorem makes_ofLists (states finals : List State) (edges : List Edge) (alphabet : OrderedSet Char)
    (initial : Option State) : Makes (Write.ofParts states edges finals initial) (void alphabet)
      ⟨.ofList states, alphabet, .ofList edges, initial, .ofList finals⟩ :=
  makes_ofParts (B := ⟨.ofList states, alphabet, .ofList edges, initial, .ofList finals⟩)
    (fun _ hq => OrderedSet.mem_ofList.mpr hq) (fun _ hq => Or.inl (OrderedSet.mem_ofList.mp hq))
    (fun _ => OrderedSet.mem_ofList) fun _ => OrderedSet.mem_ofList

theorem makes_rejecting (alphabet : OrderedSet Char) (q : State) :
    Makes ([.state q, .initial q] ++ alphabet.toList.map fun c => .link ⟨q, .symbol c, q⟩)
      (void alphabet) (rejecting alphabet q) := by
  refine makes_of_iff (B := rejecting alphabet q) ?_ ?_ ?_ ?_
  · intro p
    rw [mem_states_rejecting]
    simp
  · intro e
    rw [mem_edges_rejecting]
    simp [OrderedSet.mem_toList, eq_comm]
  · intro p
    exact iff_of_false (by simp) (OrderedSet.not_mem_empty p)
  · intro p
    simp [rejecting, eq_comm]

/-! ## Breadth first constructions -/

/-- The writes of a search make its picture: the first vertex is made a state by becoming initial,
and any other one by the move that leads to it. -/
theorem makes_unfolding {σ : Type} [BEq σ] [Hashable σ] {moves : σ → List (Char × σ)}
    {title name : σ → State} {accepting : σ → Bool} {fuel : Nat} {start : σ}
    (h : (unfold alphabet moves title accepting fuel start).Depicts moves accepting start
      name) :
    Makes (Write.unfolding moves title accepting fuel start) (void alphabet)
      (unfold alphabet moves title accepting fuel start) := by
  have hinitial (q : State) :
      (unfold alphabet moves title accepting fuel start).initial = some q ↔
        .initial q ∈ Write.unfolding moves title accepting fuel start :=
    eq_comm.trans Write.initial_mem_unfolding.symm
  refine makes_of_void ?_ ?_ ?_ ?_ hinitial
  · exact fun q hq => absurd hq Write.state_not_mem_unfolding
  · intro q hq
    obtain ⟨v, hv, rfl⟩ := (h.mem_states q).mp hq
    cases hv with
    | root hv =>
      obtain rfl := List.mem_singleton.mp hv
      exact ⟨.initial (name v), (hinitial _).mp h.initial, List.mem_singleton_self _⟩
    | @step u _ c hu hc =>
      have he := (h.mem_edges ⟨name u, .symbol c, name v⟩).mpr ⟨u, c, v, hu, hc, rfl⟩
      exact ⟨.link _, Write.link_mem_unfolding.mpr he, List.mem_cons_self⟩
  · exact fun e => Write.link_mem_unfolding.symm
  · exact fun q => Write.final_mem_unfolding.symm

/-! ## Completion, empty words and merging -/

/-- Completion writes the missing transitions only. The sink becomes a state by a transition that
leads there. -/
theorem makes_completing {sink : State} (h : A.AddsSink B sink) :
    Makes (Write.completing A sink) A B where
  alphabet_eq := h.alphabet_eq.symm
  mem_states _ hq := h.subset_states hq
  state_mem := by simp [Write.completing]
  mentioned q hq := by
    rcases (h.mem_states q).mp hq with rfl | hq
    · obtain ⟨p, c, hp⟩ := h.exists_gap
      refine Or.inl ⟨.link ⟨p, .symbol c, q⟩, ?_, List.mem_cons_self⟩
      exact List.mem_append_left _ (List.mem_map.mpr ⟨(p, c), hp, rfl⟩)
    · exact Or.inr hq
  mem_edges e := by
    rw [h.mem_edges]
    simp [Write.completing, OrderedSet.mem_toList, or_assoc, eq_comm (b := e)]
  mem_finals := by simp [Write.completing, h.finals_eq]
  initial_eq := by simp [Write.completing]
  initial_written := Or.inl h.initial_eq.symm

theorem makes_removing (A : Automaton) :
    Makes (Write.removing A) (void A.alphabet) A.removeEpsilon :=
  makes_of_iff (B := A.removeEpsilon) (fun _ => Write.state_mem_removing)
    (fun _ => Write.link_mem_removing) (fun _ => Write.final_mem_removing)
    fun _ => Write.initial_mem_removing

theorem makes_merging (A : Automaton) : Makes (Write.merging A) (void A.alphabet) A.merged :=
  makes_of_iff (B := A.merged) (fun _ => Write.state_mem_merging)
    (fun _ => Write.link_mem_merging) (fun _ => Write.final_mem_merging)
    fun _ => Write.initial_mem_merging

/-! ## Union, concatenation and repetition -/

theorem makes_absorbing (A B : Automaton) :
    Makes (Write.absorbing A ++ Write.absorbing B) (void (A.alphabet ∪ B.alphabet))
      (A.beside B) := by
  refine makes_of_iff (B := A.beside B) ?_ ?_ ?_ ?_
  · intro q
    simp [Write.mem_absorbing, beside]
  · intro e
    simp [Write.mem_absorbing, beside]
  · intro q
    simp [Write.mem_absorbing, beside]
  · intro q
    simp [Write.mem_absorbing, beside]

theorem makes_uniting (A B : Automaton) :
    Makes (Write.uniting (A.unionStart B) [A.asLeft, B.asRight])
      (A.asLeft.beside B.asRight) (A.union B) := by
  constructor
  case alphabet_eq => rfl
  case mem_states =>
    exact fun q hq => mem_states_union.mpr (Or.inr (OrderedSet.mem_union.mp hq))
  case state_mem => simp [Write.uniting]
  case mentioned =>
    intro q hq
    rcases mem_states_union.mp hq with rfl | hq
    · exact Or.inl ⟨.initial (A.unionStart B), List.mem_cons_self, List.mem_singleton_self _⟩
    · exact Or.inr (OrderedSet.mem_union.mpr hq)
  case mem_edges =>
    intro e
    show e ∈ bridges [A.unionStart B] _ ∪ (A.asLeft.edges ∪ B.asRight.edges) ↔ _
    simp [Write.uniting, mem_bridges, beside, or_and_right, exists_or]
  case mem_finals =>
    intro q
    show q ∈ A.asLeft.finals ∪ B.asRight.finals ↔ _
    simp [Write.uniting, beside, OrderedSet.mem_toList]
  case initial_eq =>
    intro q hq
    show some (A.unionStart B) = some q
    simpa [Write.uniting, eq_comm] using hq
  case initial_written => exact Or.inr ⟨A.unionStart B, List.mem_cons_self⟩

theorem makes_chaining (A B : Automaton) :
    Makes (Write.chaining A.asLeft B.asRight) (A.asLeft.beside B.asRight)
      (A.concatenate B) := by
  constructor
  case alphabet_eq => rfl
  case mem_states => exact fun q hq => hq
  case state_mem => simp [Write.chaining]
  case mentioned => exact fun q hq => Or.inr hq
  case mem_edges =>
    intro e
    show e ∈ bridges A.asLeft.finals.toList B.asRight.initial.toList ∪
      (A.asLeft.edges ∪ B.asRight.edges) ↔ _
    have hlink : .link e ∈ Write.chaining A.asLeft B.asRight ↔
        ∃ q ∈ B.asRight.initial, ∃ p ∈ A.asLeft.finals, ⟨p, .epsilon, q⟩ = e := by
      simp [Write.chaining, OrderedSet.mem_toList]
    have hbridge : e ∈ bridges A.asLeft.finals.toList B.asRight.initial.toList ↔
        ∃ q ∈ B.asRight.initial, ∃ p ∈ A.asLeft.finals, ⟨p, .epsilon, q⟩ = e := by
      rw [mem_bridges]
      simp only [OrderedSet.mem_toList, Option.mem_toList]
      exact ⟨fun ⟨p, hp, q, hq, he⟩ => ⟨q, hq, p, hp, he⟩,
        fun ⟨q, hq, p, hp, he⟩ => ⟨p, hp, q, hq, he⟩⟩
    rw [OrderedSet.mem_union, hlink, hbridge]
    rfl
  case mem_finals =>
    intro q
    show q ∈ B.asRight.finals ↔ _
    simp [Write.chaining, beside, OrderedSet.mem_toList]
  case initial_eq =>
    intro q hq
    show A.asLeft.initial = some q
    simpa [Write.chaining] using hq
  case initial_written =>
    show none = A.asLeft.initial ∨ _
    cases hi : A.asLeft.initial with
    | none => exact Or.inl rfl
    | some q => exact Or.inr ⟨q, by simp [Write.chaining, hi]⟩

theorem makes_repeating (A : Automaton) :
    Makes (Write.absorbing A ++ Write.repeating A A.starEnds.1 A.starEnds.2)
      (void A.alphabet) A.star := by
  refine makes_of_void (B := A.star) ?_ ?_ ?_ ?_ ?_
  · intro q hq
    refine mem_states_star.mpr (Or.inr (Or.inr ?_))
    simpa [Write.mem_absorbing, Write.repeating] using hq
  · intro q hq
    rcases mem_states_star.mp hq with rfl | rfl | hq
    · refine ⟨.final A.starEnds.2, ?_, List.mem_singleton_self _⟩
      exact List.mem_append_right _ (by simp [Write.repeating])
    · refine ⟨.initial A.starEnds.1, ?_, List.mem_singleton_self _⟩
      exact List.mem_append_right _ (by simp [Write.repeating])
    · refine ⟨.state q, List.mem_append_left _ ?_, List.mem_singleton_self q⟩
      simpa [Write.mem_absorbing] using hq
  · intro e
    rw [mem_edges_star, ← or_assoc, or_comm]
    simp [Write.mem_absorbing, Write.repeating, OrderedSet.mem_toList]
  · intro q
    show q ∈ OrderedSet.ofList [A.starEnds.2] ↔ _
    simp [Write.mem_absorbing, Write.repeating]
  · intro q
    show some A.starEnds.1 = some q ↔ _
    simp [Write.mem_absorbing, Write.repeating, eq_comm]

end Automaton

end RegularLanguages
