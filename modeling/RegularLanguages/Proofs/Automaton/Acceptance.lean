import RegularLanguages.Automaton.Path
import RegularLanguages.Automaton.Run
import RegularLanguages.Proofs.Search

/-!
# An automaton accepts the words of its language

Reading a word with a closed set of states leads to exactly the states that paths spelling the
word lead to. No automaton needs to be valid for this: labels and ends of transitions may be
anything.

The words that lead from a state to a final state are its meaning. Going back along a transition
puts its symbol in front of them, and they are the least languages of which this holds.

Results:
* **`languageFrom_least`**: the meaning of the states is the least one.
* `mem_closure_iff`: the closure of some seeds has the states to which paths on the empty word
  lead from a seed.
* `mem_run_iff`: what a closed set is moved to by a word.
* **`accepts_iff`**: the automaton accepts a word iff the word is in its language.
-/

namespace RegularLanguages

namespace Automaton

variable {A : Automaton}

/-! ## Paths -/

/-- A path that spells a nonempty word takes empty steps, then a transition on the first symbol,
then spells the rest. -/
theorem path_cons_iff {p r : State} {c : Char} {w : Word} :
    A.Path p (c :: w) r ↔
      ∃ q q', A.Path p [] q ∧ ⟨q, .symbol c, q'⟩ ∈ A.edges ∧ A.Path q' w r := by
  constructor
  · intro h
    generalize hv : c :: w = v at h
    induction h with
    | refl => exact absurd hv (by simp)
    | epsilon he _ ih =>
      obtain ⟨q, q', hq, hqq, hr⟩ := ih hv
      exact ⟨q, q', .epsilon he hq, hqq, hr⟩
    | symbol he hr _ =>
      obtain ⟨rfl, rfl⟩ := List.cons_eq_cons.mp hv
      exact ⟨_, _, .refl _, he, hr⟩
  · rintro ⟨q, q', hq, he, hr⟩
    exact hq.append (.symbol he hr)

theorem path_append_iff {p r : State} {u v : Word} :
    A.Path p (u ++ v) r ↔ ∃ q, A.Path p u q ∧ A.Path q v r :=
  ⟨Path.split, fun ⟨_, hu, hv⟩ => hu.append hv⟩

theorem Path.append_epsilon {p q r : State} {w : Word} (h : A.Path p w q)
    (he : ⟨q, .epsilon, r⟩ ∈ A.edges) : A.Path p w r := by
  have hr := h.append (.epsilon he (.refl r))
  rwa [List.append_nil] at hr

/-- What no transition leaves, no path leaves. -/
theorem Path.invariant {P : State → Prop} {p q : State} {w : Word} (h : A.Path p w q)
    (hP : ∀ e ∈ A.edges, P e.source → P e.target) (hp : P p) : P q := by
  induction h with
  | refl => exact hp
  | epsilon he _ ih => exact ih (hP _ he hp)
  | symbol he _ ih => exact ih (hP _ he hp)

/-- What no transition on the empty word leaves, no path on the empty word leaves. -/
theorem Path.stays {P : State → Prop} {p q : State}
    (hP : ∀ r s, P r → ⟨r, .epsilon, s⟩ ∈ A.edges → P s) (h : A.Path p [] q) (hp : P p) : P q := by
  generalize hw : ([] : Word) = w at h
  induction h with
  | refl => exact hp
  | epsilon he _ ih => exact ih (hP _ _ hp he) hw
  | symbol => exact absurd hw (by simp)

/-- A path of one automaton is a path of every automaton that has its transitions. -/
theorem path_mono {B : Automaton} (h : ∀ e, e ∈ A.edges → e ∈ B.edges) {p q : State} {w : Word}
    (hp : A.Path p w q) : B.Path p w q := by
  induction hp with
  | refl => exact .refl _
  | epsilon he _ ih => exact .epsilon (h _ he) ih
  | symbol he _ ih => exact .symbol (h _ he) ih

theorem language_iff {w : Word} :
    A.language w ↔ ∃ p, A.initial = some p ∧ A.languageFrom p w :=
  ⟨fun ⟨p, q, hp, hq, h⟩ => ⟨p, hp, q, hq, h⟩, fun ⟨p, hp, q, hq, h⟩ => ⟨p, q, hp, hq, h⟩⟩

/-- The words of a state that start with a symbol are those of the states to which it leads. -/
theorem languageFrom_cons {p : State} {c : Char} {w : Word} :
    A.languageFrom p (c :: w) ↔ ∃ q, A.Path p [c] q ∧ A.languageFrom q w := by
  constructor
  · rintro ⟨r, hr, h⟩
    obtain ⟨q, hq, h⟩ := Path.split (u := [c]) h
    exact ⟨q, hq, r, hr, h⟩
  · rintro ⟨q, hq, r, hr, h⟩
    exact ⟨r, hr, hq.append h⟩

/-- Going back along a transition puts its symbol in front of what leads to a final state. -/
theorem languageFrom_of_mem_edges {p q : State} {a : Label} {w : Word} (he : ⟨p, a, q⟩ ∈ A.edges)
    (h : A.languageFrom q w) : A.languageFrom p (a.symbol?.toList ++ w) := by
  obtain ⟨r, hr, h⟩ := h
  cases a with
  | epsilon => exact ⟨r, hr, .epsilon he h⟩
  | symbol c => exact ⟨r, hr, .symbol he h⟩

/-- **The meaning of the states is the least one**: languages for the states that have the empty
word at the final ones, and to which going back along a transition leads from its target to its
source, have all words that lead to a final state. -/
theorem languageFrom_least {L : State → Language} (hfinal : ∀ q ∈ A.finals, L q [])
    (hedge : ∀ e ∈ A.edges, ∀ w, L e.target w → L e.source (e.label.symbol?.toList ++ w))
    {p : State} {w : Word} (h : A.languageFrom p w) : L p w := by
  obtain ⟨q, hq, h⟩ := h
  induction h with
  | refl => exact hfinal _ hq
  | epsilon he _ ih => exact hedge _ he _ (ih hq)
  | symbol he _ ih => exact hedge _ he _ (ih hq)

/-- With more transitions and final states, more words lead to a final state. -/
theorem languageFrom_mono {B : Automaton} (hedges : ∀ e, e ∈ A.edges → e ∈ B.edges)
    (hfinals : ∀ q ∈ A.finals, q ∈ B.finals) {p : State} {w : Word} (h : A.languageFrom p w) :
    B.languageFrom p w := by
  obtain ⟨q, hq, h⟩ := h
  exact ⟨q, hfinals q hq, path_mono hedges h⟩

/-- What a state means is up to the transitions and the final states. -/
theorem languageFrom_congr {B : Automaton} (hedges : B.edges = A.edges)
    (hfinals : B.finals = A.finals) {p : State} {w : Word} :
    B.languageFrom p w ↔ A.languageFrom p w :=
  ⟨languageFrom_mono (fun _ he => hedges ▸ he) fun _ hf => hfinals ▸ hf,
    languageFrom_mono (fun _ he => hedges ▸ he) fun _ hf => hfinals ▸ hf⟩

/-- If the final states of a part lead on, then what the part reads leads on behind it. -/
theorem languageFrom_append_of_finals {B : Automaton} (hedges : ∀ e, e ∈ A.edges → e ∈ B.edges)
    {p : State} {u v : Word} (hu : A.languageFrom p u)
    (hv : ∀ q ∈ A.finals, B.languageFrom q v) : B.languageFrom p (u ++ v) := by
  obtain ⟨q, hq, hu⟩ := hu
  obtain ⟨r, hr, h⟩ := hv q hq
  exact ⟨r, hr, (path_mono hedges hu).append h⟩

/-- With an initial state the language is what leads from it to a final state. -/
theorem language_eq_languageFrom {p : State} (hp : A.initial = some p) {w : Word} :
    A.language w ↔ A.languageFrom p w := by
  rw [language_iff, hp]
  exact ⟨fun ⟨_, h, hw⟩ => Option.some.inj h ▸ hw, fun hw => ⟨p, rfl, hw⟩⟩

/-- Without initial state no word is in the language. -/
theorem not_language_of_initial_eq_none (h : A.initial = none) (w : Word) : ¬ A.language w := by
  rintro ⟨p, _, hp, _⟩
  rw [h] at hp
  exact absurd hp (by simp)

/-- Two automata have the same language if they have the same initial state and it means the
same. -/
theorem language_of_initial_eq {B : Automaton} (hi : B.initial = A.initial) {w : Word}
    (h : ∀ i, A.initial = some i → (B.languageFrom i w ↔ A.languageFrom i w)) :
    B.language w ↔ A.language w := by
  rw [language_iff, language_iff, hi]
  exact exists_congr fun i => and_congr_right (h i)

/-- Two automata have the same language if the initial state of the one is the image of that of
the other and means the same. -/
theorem language_of_initial_map {B : Automaton} {f : State → State}
    (hi : B.initial = A.initial.map f) {w : Word}
    (h : ∀ i, A.initial = some i → (B.languageFrom (f i) w ↔ A.languageFrom i w)) :
    B.language w ↔ A.language w := by
  cases hA : A.initial with
  | none =>
    rw [hA] at hi
    exact iff_of_false (not_language_of_initial_eq_none hi w)
      (not_language_of_initial_eq_none hA w)
  | some i =>
    rw [hA] at hi
    rw [language_eq_languageFrom hi, language_eq_languageFrom hA]
    exact h i hA

/-! ## Closures and runs -/

theorem mem_targets_adjacency {q p : State} {a : Label} :
    p ∈ A.adjacency.targets q a ↔ ⟨q, a, p⟩ ∈ A.edges := by
  simp only [Adjacency.targets, edgesOf_adjacency, List.mem_filterMap]
  constructor
  · rintro ⟨⟨b, r⟩, hb, h⟩
    split at h
    · rename_i hba
      subst hba
      exact Option.some.inj h ▸ mem_edgesFrom.mp hb
    · exact absurd h (by simp)
  · intro h
    exact ⟨(a, p), mem_edgesFrom.mpr h, by simp⟩

theorem mem_step_iff {S : OrderedSet State} {c : Char} {p : State} :
    p ∈ A.adjacency.step S c ↔ ∃ q ∈ S, ⟨q, .symbol c, p⟩ ∈ A.edges := by
  simp only [Adjacency.step, List.mem_flatMap, mem_targets_adjacency, OrderedSet.mem_toList]

/-- Every state that a search along transitions can meet is a root or the target of a
transition, which are at most as many as the fuel of the searches. -/
theorem bounded_of_edges {moves : State → List (Label × State)}
    (hmoves : ∀ q, ∀ m ∈ moves q, ⟨q, m.1, m.2⟩ ∈ A.edges) (roots : List State) :
    Search.Bounded moves (roots.length + A.adjacency.size) roots := by
  refine ⟨roots ++ A.edges.toList.map Edge.target, ?_, ?_, ?_⟩
  · exact fun v hv => List.mem_append_left _ hv
  · intro u _ v hv
    obtain ⟨a, ha⟩ := Search.mem_targets.mp hv
    exact List.mem_append_right _ (List.mem_map.mpr ⟨_, hmoves u _ ha, rfl⟩)
  · rw [List.length_append, List.length_map]
    exact Nat.le_refl _

/-- **The closure** of the seeds has exactly the states to which empty steps lead from one. -/
theorem mem_closure_iff {seeds : List State} {p : State} :
    p ∈ A.adjacency.closure seeds ↔ ∃ q ∈ seeds, A.Path q [] p := by
  have hmoves (q : State) : ∀ m ∈ (A.adjacency.edgesOf q).filter (·.1 = .epsilon),
      m.1 = .epsilon ∧ (⟨q, m.1, m.2⟩ : Edge) ∈ A.edges := by
    intro m hm
    rw [List.mem_filter, decide_eq_true_eq, edgesOf_adjacency] at hm
    exact ⟨hm.2, mem_edgesFrom.mp hm.1⟩
  have hb := bounded_of_edges (fun q m hm => (hmoves q m hm).2) seeds
  rw [Adjacency.closure, OrderedSet.mem_ofList, Search.mem_reachable_iff hb]
  constructor
  · intro h
    induction h with
    | root hv => exact ⟨_, hv, .refl _⟩
    | step _ ha ih =>
      obtain ⟨q, hq, hp⟩ := ih
      obtain ⟨rfl, he⟩ := hmoves _ _ ha
      exact ⟨q, hq, hp.append (.epsilon he (.refl _))⟩
  · rintro ⟨q, hq, hp⟩
    refine hp.stays (fun q p h he => h.step (a := .epsilon) ?_) (.root hq)
    rw [List.mem_filter, edgesOf_adjacency]
    exact ⟨mem_edgesFrom.mpr he, by simp⟩

/-- A set of states that empty steps do not leave. -/
def Closed (A : Automaton) (S : OrderedSet State) : Prop :=
  ∀ q ∈ S, ∀ p, A.Path q [] p → p ∈ S

theorem closed_closure (seeds : List State) : A.Closed (A.adjacency.closure seeds) := by
  intro q hq p hp
  obtain ⟨s, hs, hsq⟩ := mem_closure_iff.mp hq
  exact mem_closure_iff.mpr ⟨s, hs, hsq.append hp⟩

/-- The states of the next closed set: a transition on the symbol, then empty steps. -/
theorem mem_closure_step_iff {S : OrderedSet State} {c : Char} {p : State} :
    p ∈ A.adjacency.closure (A.adjacency.step S c) ↔
      ∃ q ∈ S, ∃ q', ⟨q, .symbol c, q'⟩ ∈ A.edges ∧ A.Path q' [] p := by
  rw [mem_closure_iff]
  constructor
  · rintro ⟨q', hq', hp⟩
    obtain ⟨q, hq, he⟩ := mem_step_iff.mp hq'
    exact ⟨q, hq, q', he, hp⟩
  · rintro ⟨q, hq, q', he, hp⟩
    exact ⟨q', mem_step_iff.mpr ⟨q, hq, he⟩, hp⟩

/-- From a closed set, reading a symbol and then a word is reading both from the next closed
set. -/
theorem exists_path_cons_iff {S : OrderedSet State} (hS : A.Closed S) {c : Char} {w : Word}
    {r : State} :
    (∃ p ∈ S, A.Path p (c :: w) r) ↔
      ∃ p ∈ A.adjacency.closure (A.adjacency.step S c), A.Path p w r := by
  constructor
  · rintro ⟨p, hp, h⟩
    obtain ⟨q, q', hq, he, hr⟩ := path_cons_iff.mp h
    exact ⟨q', mem_closure_step_iff.mpr ⟨q, hS p hp q hq, q', he, .refl q'⟩, hr⟩
  · rintro ⟨p, hp, h⟩
    obtain ⟨q, hq, q', he, hq'⟩ := mem_closure_step_iff.mp hp
    exact ⟨q, hq, .symbol he (hq'.append h)⟩

/-- **Reading a word** moves a closed set to the states to which paths spelling the word lead
from it. -/
theorem mem_run_iff {p : State} : ∀ {w : Word} {S : OrderedSet State}, A.Closed S →
    (p ∈ A.adjacency.run S w ↔ ∃ q ∈ S, A.Path q w p)
  | [], S, hS => ⟨fun hp => ⟨p, hp, .refl p⟩, fun ⟨q, hq, h⟩ => hS q hq p h⟩
  | c :: w, S, hS => by
    rw [exists_path_cons_iff hS]
    exact mem_run_iff (closed_closure _)

/-- **The automaton accepts exactly the words of its language.** -/
theorem accepts_iff {w : Word} : A.accepts w = true ↔ A.language w := by
  unfold accepts
  cases hi : A.initial with
  | none => simp [language, hi]
  | some p =>
    simp only [List.any_eq_true, OrderedSet.mem_toList, mem_run_iff (closed_closure [p]),
      mem_closure_iff, List.mem_singleton, exists_eq_left, isFinal, decide_eq_true_eq]
    rw [language_eq_languageFrom hi]
    constructor
    · rintro ⟨q, ⟨p', hp', hq⟩, hf⟩
      exact ⟨q, hf, hp'.append hq⟩
    · rintro ⟨q, hf, hq⟩
      exact ⟨q, ⟨p, .refl p, hq⟩, hf⟩

/-- Two automata accept the same words iff they have the same language. -/
theorem accepts_eq_iff {B : Automaton} {w : Word} :
    A.accepts w = B.accepts w ↔ (A.language w ↔ B.language w) := by
  rw [← accepts_iff, ← accepts_iff, Bool.eq_iff_iff]

end Automaton

end RegularLanguages
