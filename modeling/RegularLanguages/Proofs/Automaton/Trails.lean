import RegularLanguages.Proofs.Automaton.Acceptance

/-!
# What acceptance and closures compute

An automaton is the graph of its transitions. A trail lists the transitions that are taken one
after the other, and spells the word that is left of their labels without those that are the
empty word. It may take a transition any number of times, so it may go around cycles of
transitions on the empty word as it likes. Nothing is assumed of the automaton here: labels need
not be in the alphabet, and the ends of transitions need not be states.

Results:
* `path_iff_exists_trail`: the paths of an automaton are what its trails spell.
* `isLeastClosed_epsilonClosure`, `IsLeastClosed.unique`: the closure of some seeds is the least
  set with the seeds that no transition on the empty word leaves. It does not depend on the order
  or the repetition of the seeds.
* `closureWithin_eq_epsilonClosure`: the search for it ends by itself.
* **`accepts_iff_exists_trail_and_epsilonClosure`**: all of this together.
-/

namespace RegularLanguages.Automaton

variable {A : Automaton} {p q : State}

/-! ## Trails -/

/-- The transitions, taken in this order, lead from `p` to `q`. -/
def Trail (A : Automaton) (p : State) : List Edge → State → Prop
  | [], q => p = q
  | e :: es, q => e ∈ A.edges ∧ e.source = p ∧ A.Trail e.target es q

instance (A : Automaton) : ∀ (p : State) (es : List Edge) (q : State), Decidable (A.Trail p es q)
  | p, [], q => inferInstanceAs (Decidable (p = q))
  | p, e :: es, q =>
    have : Decidable (A.Trail e.target es q) := instDecidableTrail A e.target es q
    inferInstanceAs (Decidable (e ∈ A.edges ∧ e.source = p ∧ A.Trail e.target es q))

/-- The word that the labels of some transitions spell. -/
def spelled (es : List Edge) : Word := es.filterMap (·.label.symbol?)

theorem Trail.path : ∀ {es : List Edge} {p : State}, A.Trail p es q → A.Path p (spelled es) q
  | [], _, h => h ▸ .refl _
  | ⟨_, .epsilon, _⟩ :: _, _, ⟨he, hs, h⟩ => .epsilon (hs ▸ he) h.path
  | ⟨_, .symbol _, _⟩ :: _, _, ⟨he, hs, h⟩ => .symbol (hs ▸ he) h.path

/-- A path is what some trail spells. -/
theorem path_iff_exists_trail {w : Word} :
    A.Path p w q ↔ ∃ es, A.Trail p es q ∧ spelled es = w := by
  constructor
  · intro h
    induction h with
    | refl => exact ⟨[], rfl, rfl⟩
    | epsilon he _ ih =>
      obtain ⟨es, hes, rfl⟩ := ih
      exact ⟨_ :: es, ⟨he, rfl, hes⟩, rfl⟩
    | symbol he _ ih =>
      obtain ⟨es, hes, rfl⟩ := ih
      exact ⟨_ :: es, ⟨he, rfl, hes⟩, rfl⟩
  · rintro ⟨es, hes, rfl⟩
    exact hes.path

/-! ## Closures -/

/-- The set is the least one that has the seeds and that no transition on the empty word
leaves. -/
structure IsLeastClosed (A : Automaton) (seeds : List State) (S : OrderedSet State) : Prop where
  seeds_mem : ∀ q ∈ seeds, q ∈ S
  closed : ∀ q p, q ∈ S → ⟨q, .epsilon, p⟩ ∈ A.edges → p ∈ S
  least : ∀ P : State → Prop, (∀ q ∈ seeds, P q) →
    (∀ q p, P q → ⟨q, .epsilon, p⟩ ∈ A.edges → P p) → ∀ q ∈ S, P q

theorem isLeastClosed_epsilonClosure (seeds : List State) :
    A.IsLeastClosed seeds (A.epsilonClosure seeds) where
  seeds_mem q hq := mem_closure_iff.mpr ⟨q, hq, .refl q⟩
  closed q p hq he := by
    obtain ⟨s, hs, h⟩ := mem_closure_iff.mp hq
    exact mem_closure_iff.mpr ⟨s, hs, h.append_epsilon he⟩
  least P hseeds hclosed q hq := by
    obtain ⟨s, hs, h⟩ := mem_closure_iff.mp hq
    exact h.stays hclosed (hseeds s hs)

/-- Seeds that are the same states, in any order and any number of times, have one least closed
set. -/
theorem IsLeastClosed.unique {seeds seeds' : List State} {S T : OrderedSet State}
    (hS : A.IsLeastClosed seeds S) (hT : A.IsLeastClosed seeds' T)
    (h : ∀ q, q ∈ seeds ↔ q ∈ seeds') : S = T :=
  OrderedSet.ext_mem fun q =>
    ⟨hS.least (· ∈ T) (fun p hp => hT.seeds_mem p ((h p).mp hp)) hT.closed q,
      hT.least (· ∈ S) (fun p hp => hS.seeds_mem p ((h p).mpr hp)) hS.closed q⟩

/-- What the search for a closure has found when it is stopped after `fuel` states. -/
def closureWithin (A : Automaton) (fuel : Nat) (seeds : List State) : OrderedSet State :=
  .ofList (Search.reachable (fun q => (A.adjacency.edgesOf q).filter (·.1 = .epsilon)) fuel seeds)

/-- The search for a closure ends by itself, after at most as many states as there are seeds and
transitions. -/
theorem closureWithin_eq_epsilonClosure {seeds : List State} {fuel : Nat}
    (h : seeds.length + A.edges.size ≤ fuel) :
    A.closureWithin fuel seeds = A.epsilonClosure seeds := by
  refine congrArg OrderedSet.ofList (Search.reachable_of_le (bounded_of_edges ?_ seeds) h)
  intro q m hm
  rw [edgesOf_adjacency] at hm
  exact mem_edgesFrom.mp (List.mem_filter.mp hm).1

/-! ## All of this together -/

/-- **An automaton accepts what some trail from its initial state to a final state spells**, and
the closure of some seeds is the least set that has them and that no transition on the empty word
leaves, whatever the order and the repetition of the seeds, and however long the search for it
may go on. -/
theorem accepts_iff_exists_trail_and_epsilonClosure (A : Automaton) :
    (∀ w, A.accepts w = true ↔
      ∃ i q es, A.initial = some i ∧ q ∈ A.finals ∧ A.Trail i es q ∧ spelled es = w) ∧
    ∀ seeds, A.IsLeastClosed seeds (A.epsilonClosure seeds) ∧
      (∀ seeds', (∀ q, q ∈ seeds' ↔ q ∈ seeds) →
        A.epsilonClosure seeds' = A.epsilonClosure seeds) ∧
      ∀ fuel, seeds.length + A.edges.size ≤ fuel →
        A.closureWithin fuel seeds = A.epsilonClosure seeds := by
  refine ⟨fun w => ?_, fun seeds => ⟨isLeastClosed_epsilonClosure seeds, fun seeds' h => ?_,
    fun _ => closureWithin_eq_epsilonClosure⟩⟩
  · rw [accepts_iff]
    constructor
    · rintro ⟨i, q, hi, hq, h⟩
      obtain ⟨es, hes, hw⟩ := path_iff_exists_trail.mp h
      exact ⟨i, q, es, hi, hq, hes, hw⟩
    · rintro ⟨i, q, es, hi, hq, h⟩
      exact ⟨i, q, hi, hq, path_iff_exists_trail.mpr ⟨es, h⟩⟩
  · exact (isLeastClosed_epsilonClosure seeds').unique (isLeastClosed_epsilonClosure seeds) h

end RegularLanguages.Automaton
