import Mathlib.Logic.Function.Basic
import RegularLanguages.Automaton.Epsilon
import RegularLanguages.Proofs.Automaton.Deterministic
import RegularLanguages.Proofs.FreshNames

/-!
# A new state in the middle of every transition on a symbol

Transitions on the empty word are introduced one transition after the other, with the number of
the next name kept in between. What comes out is every transition on a symbol cut in two halves,
around a state that belongs to it alone and that is none of the old ones, whatever these are
called.

From the state in the middle only the second half goes on. So what remains to be read there is a
word of the whole transition (`languageAlong`), and going back along each half stays within the
words of the old automaton.

Results:
* `exists_subdivide_eq`: the transitions are cut one by one, around new states that are pairwise
  different.
* `languageFrom_iff`: what the old and the new states mean.
* **`addEpsilon_valid`**.
* **`exists_subdivision_addEpsilon`**: what is added and what is kept.
-/

namespace RegularLanguages.Automaton

variable {A B : Automaton} {d e : Edge} {q : State} {w : Word} {middle : Edge → State}

/-! ## Cutting transitions -/

/-- What becomes of a transition: one on a symbol is cut in two. -/
def halves (middle : Edge → State) (e : Edge) : List Edge :=
  match e.label with
  | .epsilon => [e]
  | .symbol _ => [⟨e.source, .epsilon, middle e⟩, ⟨middle e, e.label, e.target⟩]

theorem halves_congr {middle' : Edge → State} (h : middle e = middle' e) :
    halves middle e = halves middle' e := by
  unfold halves
  rw [h]

theorem mem_halves : d ∈ halves middle e ↔ e.label = .epsilon ∧ d = e ∨
    e.label ≠ .epsilon ∧
      (d = ⟨e.source, .epsilon, middle e⟩ ∨ d = ⟨middle e, e.label, e.target⟩) := by
  unfold halves
  cases e.label <;> simp

/-- The states in the middle of the transitions on symbols are not in use, and each of them
belongs to one transition. -/
structure NewMiddles (used : Std.HashSet State) (edges : List Edge) (middle : Edge → State) :
    Prop where
  not_mem_used : ∀ e ∈ edges, e.label ≠ .epsilon → middle e ∉ used
  injective : ∀ d ∈ edges, d.label ≠ .epsilon → ∀ e ∈ edges, e.label ≠ .epsilon →
    middle d = middle e → d = e

theorem NewMiddles.cons_epsilon {used : Std.HashSet State} {edges : List Edge}
    (h : NewMiddles used edges middle) (he : e.label = .epsilon) :
    NewMiddles used (e :: edges) middle := by
  have hmem {d : Edge} (hd : d ∈ e :: edges) (hs : d.label ≠ .epsilon) : d ∈ edges :=
    (List.mem_cons.mp hd).resolve_left fun hde => hs (hde ▸ he)
  exact ⟨fun d hd hs => h.not_mem_used d (hmem hd hs) hs,
    fun d hd hs d' hd' hs' => h.injective d (hmem hd hs) hs d' (hmem hd' hs') hs'⟩

/-- A transition in front gets the next numbered name. -/
theorem NewMiddles.cons_symbol {names : FreshNames} {edges : List Edge}
    (h : NewMiddles (names.fresh "eps").2.used edges middle) :
    NewMiddles names.used (e :: edges) (Function.update middle e (names.fresh "eps").1) := by
  have hmem {d : Edge} (hd : d ∈ e :: edges) (hne : d ≠ e) : d ∈ edges :=
    (List.mem_cons.mp hd).resolve_left hne
  have hnew {d : Edge} (hd : d ∈ e :: edges) (hne : d ≠ e) (hs : d.label ≠ .epsilon) :
      middle d ≠ (names.fresh "eps").1 ∧ middle d ∉ names.used := by
    have hused := h.not_mem_used d (hmem hd hne) hs
    rwa [FreshNames.mem_used_fresh, not_or] at hused
  constructor
  case not_mem_used =>
    intro d hd hs
    by_cases hde : d = e
    · rw [hde, Function.update_self]
      exact FreshNames.fresh_not_mem names "eps"
    · rw [Function.update_of_ne hde]
      exact (hnew hd hde hs).2
  case injective =>
    intro d hd hs d' hd' hs' heq
    by_cases hde : d = e
    · by_cases hde' : d' = e
      · exact hde.trans hde'.symm
      · rw [hde, Function.update_self, Function.update_of_ne hde'] at heq
        exact absurd heq.symm (hnew hd' hde' hs').1
    · by_cases hde' : d' = e
      · rw [hde', Function.update_self, Function.update_of_ne hde] at heq
        exact absurd heq (hnew hd hde hs).1
      · rw [Function.update_of_ne hde, Function.update_of_ne hde'] at heq
        exact h.injective d (hmem hd hde) hs d' (hmem hd' hde') hs' heq

/-- **Transitions are cut one by one**, around states that are new and pairwise different. The
induction takes the supply of names along. -/
theorem exists_subdivide_eq : ∀ {edges : List Edge} (names : FreshNames), edges.Nodup →
    ∃ middle, NewMiddles names.used edges middle ∧
      subdivide names edges = edges.flatMap (halves middle)
  | [], _, _ => ⟨Edge.source, ⟨by simp, by simp⟩, rfl⟩
  | e :: edges, names, hn => by
    obtain ⟨he, hn⟩ := List.nodup_cons.mp hn
    cases hlabel : e.label with
    | epsilon =>
      obtain ⟨middle, hnew, heq⟩ := exists_subdivide_eq names hn
      refine ⟨middle, hnew.cons_epsilon hlabel, ?_⟩
      simp [subdivide, halves, hlabel, heq]
    | symbol c =>
      obtain ⟨middle, hnew, heq⟩ := exists_subdivide_eq (names.fresh "eps").2 hn
      refine ⟨_, hnew.cons_symbol (e := e), ?_⟩
      have hrest : edges.flatMap (halves (Function.update middle e (names.fresh "eps").1)) =
          edges.flatMap (halves middle) :=
        List.flatMap_congr fun d hd =>
          halves_congr (Function.update_of_ne (ne_of_mem_of_not_mem hd he) _ _)
      simp [subdivide, halves, hlabel, heq, hrest]

/-! ## The automaton with new states -/

/-- The transitions on symbols. -/
def symbolEdges (A : Automaton) : OrderedSet Edge := A.edges.filter (·.label ≠ .epsilon)

theorem mem_symbolEdges : e ∈ A.symbolEdges ↔ e ∈ A.edges ∧ e.label ≠ .epsilon := by
  rw [symbolEdges, OrderedSet.mem_filter, decide_eq_true_eq]

/-- `B` is `A` with one more state for every transition on a symbol, in the middle of it. -/
structure Subdivision (B A : Automaton) (middle : Edge → State) : Prop where
  alphabet : B.alphabet = A.alphabet
  initial : B.initial = A.initial
  finals : B.finals = A.finals
  not_mem_states : ∀ e ∈ A.symbolEdges, middle e ∉ A.states
  injective : ∀ d ∈ A.symbolEdges, ∀ e ∈ A.symbolEdges, middle d = middle e → d = e
  mem_states : ∀ q, q ∈ B.states ↔ q ∈ A.states ∨ ∃ e ∈ A.symbolEdges, middle e = q
  /-- The transitions on the empty word stay, and those on symbols are replaced by two. -/
  mem_edges : ∀ d, d ∈ B.edges ↔ d ∈ A.edges ∧ d.label = .epsilon ∨
    ∃ e ∈ A.symbolEdges, d = ⟨e.source, .epsilon, middle e⟩ ∨ d = ⟨middle e, e.label, e.target⟩

/-- The transitions with those on symbols cut in two. -/
def divided (A : Automaton) : List Edge := subdivide (.avoiding A.states.toList) A.edges.toList

theorem mem_states_addEpsilon :
    q ∈ A.addEpsilon.states ↔ (∃ e ∈ A.divided, e.source = q) ∨ q ∈ A.states := by
  show q ∈ OrderedSet.ofList (A.divided.map (·.source)) ∪ A.states ↔ _
  rw [OrderedSet.mem_union, OrderedSet.mem_ofList, List.mem_map]

theorem mem_edges_addEpsilon : e ∈ A.addEpsilon.edges ↔ e ∈ A.divided := OrderedSet.mem_ofList

theorem mem_divided (h : A.divided = A.edges.toList.flatMap (halves middle)) :
    d ∈ A.divided ↔ d ∈ A.edges ∧ d.label = .epsilon ∨
      ∃ e ∈ A.symbolEdges, d = ⟨e.source, .epsilon, middle e⟩ ∨
        d = ⟨middle e, e.label, e.target⟩ := by
  simp only [h, List.mem_flatMap, mem_halves, OrderedSet.mem_toList, mem_symbolEdges]
  constructor
  · rintro ⟨e, he, ⟨hε, rfl⟩ | ⟨hs, hd⟩⟩
    · exact Or.inl ⟨he, hε⟩
    · exact Or.inr ⟨e, ⟨he, hs⟩, hd⟩
  · rintro (⟨hd, hε⟩ | ⟨e, ⟨he, hs⟩, hd⟩)
    · exact ⟨d, hd, Or.inl ⟨hε, rfl⟩⟩
    · exact ⟨e, he, Or.inr ⟨hs, hd⟩⟩

theorem exists_subdivision (hA : A.Valid) : ∃ middle, A.addEpsilon.Subdivision A middle := by
  obtain ⟨middle, hnew, heq⟩ := exists_subdivide_eq (.avoiding A.states.toList)
    (OrderedSet.nodup_toList A.edges)
  refine ⟨middle, rfl, rfl, rfl, fun e he => ?_, fun d hd e he => ?_, fun q => ?_, fun d => ?_⟩
  · obtain ⟨he, hs⟩ := mem_symbolEdges.mp he
    exact fun hm => hnew.not_mem_used e he hs (FreshNames.mem_used_avoiding.mpr hm)
  · obtain ⟨hd, hds⟩ := mem_symbolEdges.mp hd
    obtain ⟨he, hes⟩ := mem_symbolEdges.mp he
    exact hnew.injective d hd hds e he hes
  · simp only [mem_states_addEpsilon, mem_divided heq]
    constructor
    · rintro (⟨d, ⟨hd, -⟩ | ⟨e, he, rfl | rfl⟩, rfl⟩ | hq)
      · exact Or.inl (hA.source_mem d hd)
      · exact Or.inl (hA.source_mem e (mem_symbolEdges.mp he).1)
      · exact Or.inr ⟨e, he, rfl⟩
      · exact Or.inl hq
    · rintro (hq | ⟨e, he, rfl⟩)
      · exact Or.inr hq
      · exact Or.inl ⟨_, Or.inr ⟨e, he, Or.inr rfl⟩, rfl⟩
  · exact mem_edges_addEpsilon.trans (mem_divided heq)

namespace Subdivision

theorem mem_states_of_mem (h : B.Subdivision A middle) (hq : q ∈ A.states) : q ∈ B.states :=
  (h.mem_states q).mpr (Or.inl hq)

theorem middle_mem_states (h : B.Subdivision A middle) (he : e ∈ A.symbolEdges) :
    middle e ∈ B.states :=
  (h.mem_states _).mpr (Or.inr ⟨e, he, rfl⟩)

theorem valid (h : B.Subdivision A middle) (hA : A.Valid) : B.Valid where
  initial_mem q hq := h.mem_states_of_mem (hA.initial_mem q (h.initial ▸ hq))
  final_mem q hq := h.mem_states_of_mem (hA.final_mem q (h.finals ▸ hq))
  source_mem d hd := by
    rcases (h.mem_edges d).mp hd with ⟨hd, -⟩ | ⟨e, he, rfl | rfl⟩
    · exact h.mem_states_of_mem (hA.source_mem d hd)
    · exact h.mem_states_of_mem (hA.source_mem e (mem_symbolEdges.mp he).1)
    · exact h.middle_mem_states he
  target_mem d hd := by
    rcases (h.mem_edges d).mp hd with ⟨hd, -⟩ | ⟨e, he, rfl | rfl⟩
    · exact h.mem_states_of_mem (hA.target_mem d hd)
    · exact h.middle_mem_states he
    · exact h.mem_states_of_mem (hA.target_mem e (mem_symbolEdges.mp he).1)
  label_mem d hd c hc := by
    rw [h.alphabet]
    rcases (h.mem_edges d).mp hd with ⟨hd, -⟩ | ⟨e, he, rfl | rfl⟩
    · exact hA.label_mem d hd c hc
    · exact absurd hc (by simp)
    · exact hA.label_mem e (mem_symbolEdges.mp he).1 c hc
  epsilon_not_mem := h.alphabet ▸ hA.epsilon_not_mem

/-- There is one state more for every transition on a symbol. -/
theorem size_eq (h : B.Subdivision A middle) : B.size = A.size + A.symbolEdges.size := by
  have hstates : B.states = A.states ∪ A.symbolEdges.map middle := OrderedSet.ext_mem fun q => by
    rw [h.mem_states, OrderedSet.mem_union, OrderedSet.mem_map]
  have hdisjoint : ∀ q ∈ A.states, q ∉ A.symbolEdges.map middle := by
    intro q hq hm
    obtain ⟨e, he, rfl⟩ := OrderedSet.mem_map.mp hm
    exact h.not_mem_states e he hq
  rw [size, hstates, OrderedSet.size_union hdisjoint, OrderedSet.size_map h.injective]
  rfl

end Subdivision

/-- **With transitions on the empty word an automaton stays valid.** -/
theorem addEpsilon_valid (hA : A.Valid) : A.addEpsilon.Valid := by
  obtain ⟨_, h⟩ := exists_subdivision hA
  exact h.valid hA

@[simp] theorem alphabet_addEpsilon (A : Automaton) : A.addEpsilon.alphabet = A.alphabet := rfl

/-! ## What the states mean -/

/-- The words that take a transition and lead on from its target to a final state. -/
def languageAlong (A : Automaton) (e : Edge) : Language := fun w =>
  ∃ v, A.languageFrom e.target v ∧ e.label.symbol?.toList ++ v = w

theorem languageFrom_of_languageAlong (he : e ∈ A.edges) (h : A.languageAlong e w) :
    A.languageFrom e.source w := by
  obtain ⟨v, hv, rfl⟩ := h
  exact languageFrom_of_mem_edges he hv

/-- The words that lead from an old or a new state to a final state. -/
def subdivisionFrom (A : Automaton) (middle : Edge → State) (q : State) : Language := fun w =>
  if q ∈ A.states then A.languageFrom q w
  else ∃ e ∈ A.symbolEdges, middle e = q ∧ A.languageAlong e w

theorem subdivisionFrom_of_mem (hq : q ∈ A.states) :
    A.subdivisionFrom middle q w ↔ A.languageFrom q w := by
  rw [subdivisionFrom, if_pos hq]

namespace Subdivision

theorem subdivisionFrom_middle (h : B.Subdivision A middle) (he : e ∈ A.symbolEdges) :
    A.subdivisionFrom middle (middle e) w ↔ A.languageAlong e w := by
  rw [subdivisionFrom, if_neg (h.not_mem_states e he)]
  constructor
  · rintro ⟨d, hd, hde, hw⟩
    exact h.injective d hd e he hde ▸ hw
  · intro hw
    exact ⟨e, he, rfl, hw⟩

/-- A transition that is cut is taken by its two halves. -/
theorem languageFrom_of_languageFrom (h : B.Subdivision A middle) (hw : A.languageFrom q w) :
    B.languageFrom q w := by
  refine languageFrom_least (L := B.languageFrom) ?final ?edge hw
  case final => exact fun q hq => ⟨q, h.finals ▸ hq, .refl q⟩
  case edge =>
    intro e he w hw
    by_cases hε : e.label = .epsilon
    · exact languageFrom_of_mem_edges ((h.mem_edges e).mpr (Or.inl ⟨he, hε⟩)) hw
    · have hs : e ∈ A.symbolEdges := mem_symbolEdges.mpr ⟨he, hε⟩
      have hfirst : ⟨e.source, .epsilon, middle e⟩ ∈ B.edges :=
        (h.mem_edges _).mpr (Or.inr ⟨e, hs, Or.inl rfl⟩)
      have hsecond : ⟨middle e, e.label, e.target⟩ ∈ B.edges :=
        (h.mem_edges _).mpr (Or.inr ⟨e, hs, Or.inr rfl⟩)
      exact languageFrom_of_mem_edges (a := .epsilon) hfirst (languageFrom_of_mem_edges hsecond hw)

/-- Going back along the halves of transitions stays within the words of the states. -/
theorem subdivisionFrom_of_languageFrom (h : B.Subdivision A middle) (hA : A.Valid)
    (hw : B.languageFrom q w) : A.subdivisionFrom middle q w := by
  refine languageFrom_least (L := A.subdivisionFrom middle) ?final ?edge hw
  case final =>
    intro q hq
    rw [h.finals] at hq
    exact (subdivisionFrom_of_mem (hA.final_mem q hq)).mpr ⟨q, hq, .refl q⟩
  case edge =>
    intro d hd w hw
    rcases (h.mem_edges d).mp hd with ⟨hd, -⟩ | ⟨e, he, rfl | rfl⟩
    · rw [subdivisionFrom_of_mem (hA.target_mem d hd)] at hw
      exact (subdivisionFrom_of_mem (hA.source_mem d hd)).mpr (languageFrom_of_mem_edges hd hw)
    · -- into the middle: the rest of the word takes the whole transition
      have hedge := (mem_symbolEdges.mp he).1
      exact (subdivisionFrom_of_mem (hA.source_mem e hedge)).mpr
        (languageFrom_of_languageAlong hedge ((h.subdivisionFrom_middle he).mp hw))
    · have hedge := (mem_symbolEdges.mp he).1
      exact (h.subdivisionFrom_middle he).mpr
        ⟨w, (subdivisionFrom_of_mem (hA.target_mem e hedge)).mp hw, rfl⟩

/-- **What the states of a subdivision mean.** -/
theorem languageFrom_iff (h : B.Subdivision A middle) (hA : A.Valid) (hq : q ∈ B.states) :
    B.languageFrom q w ↔ A.subdivisionFrom middle q w := by
  refine ⟨h.subdivisionFrom_of_languageFrom hA, fun hw => ?_⟩
  rcases (h.mem_states q).mp hq with hq | ⟨e, he, rfl⟩
  · exact h.languageFrom_of_languageFrom ((subdivisionFrom_of_mem hq).mp hw)
  · obtain ⟨v, hv, rfl⟩ := (h.subdivisionFrom_middle he).mp hw
    exact languageFrom_of_mem_edges ((h.mem_edges _).mpr (Or.inr ⟨e, he, Or.inr rfl⟩))
      (h.languageFrom_of_languageFrom hv)

theorem languageFrom_iff_of_mem (h : B.Subdivision A middle) (hA : A.Valid) (hq : q ∈ A.states) :
    B.languageFrom q w ↔ A.languageFrom q w :=
  (h.languageFrom_iff hA (h.mem_states_of_mem hq)).trans (subdivisionFrom_of_mem hq)

end Subdivision

/-- **Introducing transitions on the empty word** adds one new state for every transition on a
symbol, in the middle of it, and changes the meaning of no state. -/
theorem exists_subdivision_addEpsilon (hA : A.Valid) :
    ∃ middle, A.addEpsilon.Subdivision A middle ∧
      A.addEpsilon.size = A.size + A.symbolEdges.size ∧
      (∀ q ∈ A.states, ∀ w, A.addEpsilon.languageFrom q w ↔ A.languageFrom q w) ∧
      ∀ w, A.addEpsilon.accepts w = A.accepts w := by
  obtain ⟨middle, h⟩ := exists_subdivision hA
  have hmeaning : ∀ q ∈ A.states, ∀ w, A.addEpsilon.languageFrom q w ↔ A.languageFrom q w :=
    fun q hq w => h.languageFrom_iff_of_mem hA hq
  refine ⟨middle, h, h.size_eq, hmeaning, fun w => ?_⟩
  rw [accepts_eq_iff]
  exact language_of_initial_eq h.initial fun i hi => hmeaning i (hA.initial_mem i hi) w

/-- The states have the names that would be given to new ones. An `a` leads from `eps0` to `eps1`
and to itself, a `b` from `eps1` back. -/
def namedLikeNew : Automaton where
  states := .ofList [⟨"eps0"⟩, ⟨"eps1"⟩]
  alphabet := .ofList ['a', 'b']
  edges := .ofList [⟨⟨"eps0"⟩, .symbol 'a', ⟨"eps0"⟩⟩, ⟨⟨"eps0"⟩, .symbol 'a', ⟨"eps1"⟩⟩,
    ⟨⟨"eps1"⟩, .symbol 'b', ⟨"eps0"⟩⟩]
  initial := some ⟨"eps0"⟩
  finals := .ofList [⟨"eps1"⟩]

/-- The three new states are different from both old ones, and none of them is the middle of two
transitions. -/
theorem addEpsilon_namedLikeNew :
    namedLikeNew.addEpsilon.size = 5 ∧ namedLikeNew.addEpsilon.accepts ['a', 'a'] = true ∧
      ¬ namedLikeNew.addEpsilon.languageFrom ⟨"eps0"⟩ [] := by
  obtain ⟨middle, h, hsize, hmeaning, haccepts⟩ :=
    exists_subdivision_addEpsilon (A := namedLikeNew) (by decide)
  have hε : ∀ p q, ⟨p, .epsilon, q⟩ ∉ namedLikeNew.edges := hasEpsilon_eq_false_iff.mp (by decide)
  refine ⟨hsize.trans (by decide), ?_, ?_⟩
  · rw [haccepts, accepts_iff]
    exact ⟨⟨"eps0"⟩, ⟨"eps1"⟩, rfl, by decide,
      .symbol (q := ⟨"eps0"⟩) (by decide) (.symbol (by decide) (.refl _))⟩
  · rw [hmeaning _ (by decide), languageFrom_nil_of_epsilonFree hε]
    decide

end RegularLanguages.Automaton
