import RegularLanguages.Automaton.Reachability
import RegularLanguages.Proofs.Automaton.Deterministic

/-!
# Accessible and useful states

The searches for accessible and co-accessible states find the states of the same name
(`Accessible`, `CoAccessible`). An automaton that is restricted to some states keeps the paths
whose states are all kept, so it keeps its language if it keeps the useful states.

Results:
* **`mem_accessible`**, **`mem_coAccessible`**, `mem_useful`: the searches are exact.
* `path_within`: which paths a restricted automaton keeps.
* **`within_language`**: restricting to states among which are the useful ones keeps the
  language; `withoutUnreachable_language` and `prune_language` are the two restrictions in use.
-/

namespace RegularLanguages

namespace Automaton

variable {A : Automaton}

/-! ## The searches -/

/-- The search along transitions finds what paths lead to from a root. -/
theorem reaches_edgesOf_iff {roots : List State} {q : State} :
    Search.Reaches A.adjacency.edgesOf roots q ↔ ∃ p ∈ roots, ∃ w, A.Path p w q := by
  constructor
  · intro h
    induction h with
    | root hv => exact ⟨_, hv, [], .refl _⟩
    | @step u v a _ ha ih =>
      obtain ⟨p, hp, w, hw⟩ := ih
      rw [edgesOf_adjacency] at ha
      cases a with
      | epsilon => exact ⟨p, hp, w ++ [], hw.append (.epsilon (mem_edgesFrom.mp ha) (.refl v))⟩
      | symbol c => exact ⟨p, hp, w ++ [c], hw.append (.symbol (mem_edgesFrom.mp ha) (.refl v))⟩
  · rintro ⟨p, hp, w, hw⟩
    have hr : Search.Reaches A.adjacency.edgesOf roots p := .root hp
    clear hp
    induction hw with
    | refl => exact hr
    | epsilon he _ ih =>
      refine ih (hr.step (a := .epsilon) ?_)
      rw [edgesOf_adjacency]
      exact mem_edgesFrom.mpr he
    | @symbol _ _ _ c _ he _ ih =>
      refine ih (hr.step (a := .symbol c) ?_)
      rw [edgesOf_adjacency]
      exact mem_edgesFrom.mpr he

/-- The fuel of a search along transitions from at most one root is enough. -/
theorem bounded_edgesOf (roots : List State) :
    Search.Bounded A.adjacency.edgesOf (roots.length + A.adjacency.size) roots := by
  refine bounded_of_edges (fun q m hm => ?_) roots
  rw [edgesOf_adjacency] at hm
  exact mem_edgesFrom.mp hm

/-- **The accessible states** are those to which paths lead from the initial state. -/
theorem mem_accessible {q : State} : q ∈ A.accessible ↔ A.Accessible q := by
  unfold accessible accessible? Accessible
  cases hi : A.initial with
  | none => simp
  | some i =>
    have hb := bounded_edgesOf (A := A) [i]
    rw [List.length_singleton, Nat.add_comm] at hb
    show q ∈ OrderedSet.ofList (Search.reachable A.adjacency.edgesOf (A.adjacency.size + 1) [i]) ↔ _
    rw [OrderedSet.mem_ofList, Search.mem_reachable_iff hb, reaches_edgesOf_iff]
    simp

theorem mem_edgesOf_reverse {p q : State} {a : Label} :
    (a, p) ∈ A.reverseAdjacency.edgesOf q ↔ ⟨p, a, q⟩ ∈ A.edges := by
  rw [reverseAdjacency, Adjacency.edgesOf_ofEdges]
  simp only [List.mem_map, List.mem_filter, decide_eq_true_eq, Prod.mk.injEq]
  constructor
  · rintro ⟨_, ⟨⟨e, he, rfl⟩, rfl⟩, rfl, rfl⟩
    exact he
  · intro he
    exact ⟨_, ⟨⟨_, he, rfl⟩, rfl⟩, rfl, rfl⟩

/-- **The co-accessible states** are those from which paths lead to a final state. -/
theorem mem_coAccessible {q : State} : q ∈ A.coAccessible ↔ A.CoAccessible q := by
  have hb : Search.Bounded A.reverseAdjacency.edgesOf
      (A.finals.size + A.reverseAdjacency.size) A.finals.toList := by
    refine ⟨A.finals.toList ++ A.edges.toList.map Edge.source,
      fun v hv => List.mem_append_left _ hv, fun u _ v hv => ?_, ?_⟩
    · obtain ⟨a, ha⟩ := Search.mem_targets.mp hv
      exact List.mem_append_right _ (List.mem_map.mpr ⟨_, mem_edgesOf_reverse.mp ha, rfl⟩)
    · rw [List.length_append, List.length_map, reverseAdjacency, Adjacency.ofEdges,
        List.length_map]
      exact Nat.le_refl _
  unfold coAccessible
  rw [OrderedSet.mem_ofList, Search.mem_reachable_iff hb]
  constructor
  · intro h
    induction h with
    | root hv => exact ⟨[], _, hv, .refl _⟩
    | @step u v a _ ha ih =>
      obtain ⟨w, f, hf, hw⟩ := ih
      have he := mem_edgesOf_reverse.mp ha
      cases a with
      | epsilon => exact ⟨w, f, hf, .epsilon he hw⟩
      | symbol c => exact ⟨c :: w, f, hf, .symbol he hw⟩
  · rintro ⟨w, f, hf, hw⟩
    induction hw with
    | refl => exact .root hf
    | epsilon he _ ih => exact (ih hf).step (mem_edgesOf_reverse.mpr he)
    | symbol he _ ih => exact (ih hf).step (mem_edgesOf_reverse.mpr he)

theorem mem_useful {q : State} : q ∈ A.useful ↔ A.Accessible q ∧ A.CoAccessible q := by
  rw [useful, OrderedSet.mem_inter, mem_accessible, mem_coAccessible]

/-! ## Restricted automata -/

section Within

variable {kept : OrderedSet State}

theorem mem_edges_within {e : Edge} :
    e ∈ (A.within kept).edges ↔ e ∈ A.edges ∧ e.source ∈ kept ∧ e.target ∈ kept := by
  show e ∈ A.edges.filter _ ↔ _
  rw [OrderedSet.mem_filter, Bool.and_eq_true, decide_eq_true_eq, decide_eq_true_eq]

theorem mem_states_within {q : State} : q ∈ (A.within kept).states ↔ q ∈ A.states ∧ q ∈ kept := by
  show q ∈ A.states.filter _ ↔ _
  rw [OrderedSet.mem_filter, decide_eq_true_eq]

theorem mem_finals_within {q : State} : q ∈ (A.within kept).finals ↔ q ∈ A.finals ∧ q ∈ kept := by
  show q ∈ A.finals.filter _ ↔ _
  rw [OrderedSet.mem_filter, decide_eq_true_eq]

theorem initial_within_eq_some {q : State} :
    (A.within kept).initial = some q ↔ A.initial = some q ∧ q ∈ kept := by
  show A.initial.filter _ = some q ↔ _
  rw [Option.filter_eq_some_iff, decide_eq_true_eq]

/-- Restricting to all states changes nothing. -/
theorem within_eq_self (hA : A.Valid) (h : ∀ q ∈ A.states, q ∈ kept) : A.within kept = A := by
  refine Automaton.ext_mem (fun q => ?_) rfl (fun e => ?_) (Option.ext fun q => ?_) fun q => ?_
  · exact mem_states_within.trans (and_iff_left_of_imp (h q))
  · refine mem_edges_within.trans (and_iff_left_of_imp fun he => ?_)
    exact ⟨h _ (hA.source_mem e he), h _ (hA.target_mem e he)⟩
  · exact initial_within_eq_some.trans
      (and_iff_left_of_imp fun hq => h q (hA.initial_mem q hq))
  · exact mem_finals_within.trans (and_iff_left_of_imp fun hq => h q (hA.final_mem q hq))

theorem within_valid (hA : A.Valid) : (A.within kept).Valid where
  initial_mem q hq := by
    obtain ⟨hi, hk⟩ := initial_within_eq_some.mp hq
    exact mem_states_within.mpr ⟨hA.initial_mem q hi, hk⟩
  final_mem q hq := by
    obtain ⟨hf, hk⟩ := mem_finals_within.mp hq
    exact mem_states_within.mpr ⟨hA.final_mem q hf, hk⟩
  source_mem e he := by
    obtain ⟨he, hs, _⟩ := mem_edges_within.mp he
    exact mem_states_within.mpr ⟨hA.source_mem e he, hs⟩
  target_mem e he := by
    obtain ⟨he, _, ht⟩ := mem_edges_within.mp he
    exact mem_states_within.mpr ⟨hA.target_mem e he, ht⟩
  label_mem e he := hA.label_mem e (mem_edges_within.mp he).1
  epsilon_not_mem := hA.epsilon_not_mem

theorem within_deterministic (hA : A.Deterministic) : (A.within kept).Deterministic where
  not_epsilon p q he := hA.not_epsilon p q (mem_edges_within.mp he).1
  target_unique he he' := hA.target_unique (mem_edges_within.mp he).1 (mem_edges_within.mp he').1

theorem path_of_within {p q : State} {w : Word} (h : (A.within kept).Path p w q) : A.Path p w q :=
  path_mono (fun _ he => (mem_edges_within.mp he).1) h

/-- A path stays if all states that lie between its ends are kept. -/
theorem path_within {p q : State} {w : Word} (h : A.Path p w q)
    (hk : ∀ r, (∃ u, A.Path p u r) → (∃ v, A.Path r v q) → r ∈ kept) :
    (A.within kept).Path p w q := by
  induction h with
  | refl => exact .refl _
  | @epsilon p r q w he hr ih =>
    have hp : p ∈ kept := hk p ⟨[], .refl p⟩ ⟨w, .epsilon he hr⟩
    have hr' : r ∈ kept := hk r ⟨[], .epsilon he (.refl r)⟩ ⟨w, hr⟩
    refine .epsilon (mem_edges_within.mpr ⟨he, hp, hr'⟩) (ih fun s hs hs' => hk s ?_ hs')
    obtain ⟨u, hu⟩ := hs
    exact ⟨u, .epsilon he hu⟩
  | @symbol p r q c w he hr ih =>
    have hp : p ∈ kept := hk p ⟨[], .refl p⟩ ⟨c :: w, .symbol he hr⟩
    have hr' : r ∈ kept := hk r ⟨[c], .symbol he (.refl r)⟩ ⟨w, hr⟩
    refine .symbol (mem_edges_within.mpr ⟨he, hp, hr'⟩) (ih fun s hs hs' => hk s ?_ hs')
    obtain ⟨u, hu⟩ := hs
    exact ⟨c :: u, .symbol he hu⟩

/-- **Restricting an automaton to states that include the useful ones keeps its language.** -/
theorem within_language (hk : ∀ q, A.Accessible q → A.CoAccessible q → q ∈ kept) (w : Word) :
    (A.within kept).language w ↔ A.language w := by
  constructor
  · rintro ⟨p, q, hp, hq, h⟩
    exact ⟨p, q, (initial_within_eq_some.mp hp).1, (mem_finals_within.mp hq).1,
      path_of_within h⟩
  · rintro ⟨p, q, hp, hq, h⟩
    have hbetween : ∀ r, (∃ u, A.Path p u r) → (∃ v, A.Path r v q) → r ∈ kept := by
      rintro r ⟨u, hu⟩ ⟨v, hv⟩
      exact hk r ⟨p, u, hp, hu⟩ ⟨v, q, hq, hv⟩
    have hp' : p ∈ kept := hbetween p ⟨[], .refl p⟩ ⟨w, h⟩
    have hq' : q ∈ kept := hbetween q ⟨w, h⟩ ⟨[], .refl q⟩
    exact ⟨p, q, initial_within_eq_some.mpr ⟨hp, hp'⟩, mem_finals_within.mpr ⟨hq, hq'⟩,
      path_within h hbetween⟩

end Within

theorem withoutUnreachable_language (w : Word) :
    A.withoutUnreachable.language w ↔ A.language w :=
  within_language (fun _ hq _ => mem_accessible.mpr hq) w

/-- An accessible state keeps its meaning when the others are removed. -/
theorem withoutUnreachable_languageFrom {p : State} (hp : A.Accessible p) (w : Word) :
    A.withoutUnreachable.languageFrom p w ↔ A.languageFrom p w := by
  constructor
  · rintro ⟨q, hq, h⟩
    exact ⟨q, (mem_finals_within.mp hq).1, path_of_within h⟩
  · rintro ⟨q, hq, h⟩
    have hkept (r : State) (hr : ∃ u, A.Path p u r) : r ∈ A.accessible := by
      obtain ⟨u, hu⟩ := hr
      exact mem_accessible.mpr (hp.path hu)
    exact ⟨q, mem_finals_within.mpr ⟨hq, hkept q ⟨w, h⟩⟩, path_within h fun r hr _ => hkept r hr⟩

theorem prune_valid (hA : A.Valid) : A.prune.Valid := within_valid hA

theorem prune_language (w : Word) : A.prune.language w ↔ A.language w :=
  within_language (fun _ hq hq' => mem_useful.mpr ⟨hq, hq'⟩) w

theorem isSome_initial_withoutUnreachable (A : Automaton) :
    A.withoutUnreachable.initial.isSome = A.initial.isSome := by
  cases hi : A.initial with
  | none =>
    cases hj : A.withoutUnreachable.initial with
    | none => rfl
    | some j =>
      have := (initial_within_eq_some.mp hj).1
      rw [hi] at this
      exact absurd this (by simp)
  | some i =>
    have hj : A.withoutUnreachable.initial = some i :=
      initial_within_eq_some.mpr ⟨hi, mem_accessible.mpr (accessible_initial hi)⟩
    rw [hj]

/-- All states that are left when the others are removed are accessible. -/
theorem withoutUnreachable_accessible {q : State} (hq : q ∈ A.withoutUnreachable.states) :
    A.withoutUnreachable.Accessible q := by
  obtain ⟨p, w, hp, h⟩ := mem_accessible.mp (mem_states_within.mp hq).2
  have hacc (r : State) (hr : ∃ u, A.Path p u r) : r ∈ A.accessible := by
    obtain ⟨u, hu⟩ := hr
    exact mem_accessible.mpr ⟨p, u, hp, hu⟩
  exact ⟨p, w, initial_within_eq_some.mpr ⟨hp, hacc p ⟨[], .refl p⟩⟩,
    path_within h fun r hr _ => hacc r hr⟩

end Automaton

end RegularLanguages
