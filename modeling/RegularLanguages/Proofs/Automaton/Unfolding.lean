import Std.Data.HashMap.Lemmas
import RegularLanguages.Automaton.Unfolding
import RegularLanguages.Proofs.Automaton.Deterministic
import RegularLanguages.Proofs.FreshNames

/-!
# The automaton of reachable vertices is a picture of them

The names are claimed in the order of discovery and looked up in a hash table afterwards. What
comes out does not depend on any of this: up to the choice of different names for different
vertices, the automaton is the graph of the vertices that can be reached.

Results:
* `getD_ofList`: a look-up in a table of pairs with different keys.
* **`exists_depicts`**: with enough fuel, `unfold` is a picture (`Depicts`) of the graph.
* `Depicts.accessible`: every state of a picture is accessible.
* `Depicts.deterministic`: the picture of a graph with at most one move per symbol is
  deterministic.
-/

namespace RegularLanguages

/-- A look-up in a table of pairs finds the partner of a key, provided that no key occurs
twice. -/
theorem getD_ofList {α β : Type} [BEq α] [Hashable α] [LawfulBEq α] {l : List (α × β)}
    (hn : (l.map Prod.fst).Nodup) {k : α} {v : β} (h : (k, v) ∈ l) (fallback : β) :
    (Std.HashMap.ofList l).getD k fallback = v := by
  refine Std.HashMap.getD_ofList_of_mem (beq_self_eq_true k) ?_ h
  exact (List.pairwise_map.mp hn).imp fun hab => beq_false_of_ne hab

namespace Automaton

variable {σ : Type}

/-- The automaton consists of the vertices that can be reached and of their moves, with every
vertex replaced by a name of its own. -/
structure Depicts (A : Automaton) (moves : σ → List (Char × σ)) (accepting : σ → Bool)
    (start : σ) (name : σ → State) : Prop where
  injective : ∀ u v, Search.Reaches moves [start] u → Search.Reaches moves [start] v →
    name u = name v → u = v
  mem_states : ∀ q, q ∈ A.states ↔ ∃ v, Search.Reaches moves [start] v ∧ name v = q
  mem_edges : ∀ e, e ∈ A.edges ↔ ∃ v c w, Search.Reaches moves [start] v ∧ (c, w) ∈ moves v ∧
    e = ⟨name v, .symbol c, name w⟩
  initial : A.initial = some (name start)
  mem_finals : ∀ q, q ∈ A.finals ↔
    ∃ v, Search.Reaches moves [start] v ∧ accepting v = true ∧ name v = q

section Unfold

variable [BEq σ] [Hashable σ] {moves : σ → List (Char × σ)} {title : σ → State} {fuel : Nat}
  {start : σ}

/-- The table of names: to each vertex found the name that was claimed for it. -/
def nameTable (moves : σ → List (Char × σ)) (title : σ → State) (fuel : Nat) (start : σ) :
    List ((σ × List (Char × σ)) × State) :=
  (Search.explore moves fuel [start]).zip
    (FreshNames.empty.claimAll ((Search.explore moves fuel [start]).map fun v => title v.1))

/-- The name of a vertex. -/
def nameOf (moves : σ → List (Char × σ)) (title : σ → State) (fuel : Nat) (start v : σ) :
    State :=
  (Std.HashMap.ofList ((nameTable moves title fuel start).map fun v => (v.1.1, v.2))).getD v
    (title v)

theorem nameTable_keys :
    ((nameTable moves title fuel start).map fun v => (v.1.1, v.2)).map Prod.fst =
      Search.reachable moves fuel [start] := by
  have hzip : (nameTable moves title fuel start).map Prod.fst =
      Search.explore moves fuel [start] :=
    List.map_fst_zip (by simp)
  rw [List.map_map, Search.reachable, ← hzip, List.map_map]
  rfl

variable [LawfulBEq σ]

theorem nameTable_eq_map (h : Search.Bounded moves fuel [start]) :
    nameTable moves title fuel start =
      (Search.reachable moves fuel [start]).map fun v =>
        ((v, moves v), nameOf moves title fuel start v) := by
  have hn : (((nameTable moves title fuel start).map fun v => (v.1.1, v.2)).map
      Prod.fst).Nodup := by
    rw [nameTable_keys]
    exact Search.nodup_reachable h
  have hlook : ∀ v ∈ nameTable moves title fuel start,
      v = ((v.1.1, moves v.1.1), nameOf moves title fuel start v.1.1) := by
    intro v hv
    have hmoves : v.1 = (v.1.1, moves v.1.1) := by
      have hmem : v.1 ∈ Search.explore moves fuel [start] := (List.of_mem_zip hv).1
      rw [Search.explore_eq_map] at hmem
      obtain ⟨u, _, hu⟩ := List.mem_map.mp hmem
      rw [← hu]
    have hname : nameOf moves title fuel start v.1.1 = v.2 :=
      getD_ofList hn (List.mem_map.mpr ⟨v, hv, rfl⟩) _
    rw [hname, ← hmoves]
  rw [← nameTable_keys, List.map_map, List.map_map]
  exact (List.map_id _).symm.trans (List.map_congr_left hlook)

theorem nodup_map_nameOf (h : Search.Bounded moves fuel [start]) :
    ((Search.reachable moves fuel [start]).map (nameOf moves title fuel start)).Nodup := by
  have hsnd : (nameTable moves title fuel start).map Prod.snd =
      FreshNames.empty.claimAll ((Search.explore moves fuel [start]).map fun v => title v.1) :=
    List.map_snd_zip (by simp)
  rw [nameTable_eq_map h, List.map_map] at hsnd
  exact hsnd ▸ FreshNames.nodup_claimAll _ _

/-- **The automaton of reachable vertices is a picture of the graph**, whatever names are
suggested. -/
theorem exists_depicts (h : Search.Bounded moves fuel [start]) (alphabet : OrderedSet Char)
    (title : σ → State) (accepting : σ → Bool) :
    ∃ name, (unfold alphabet moves title accepting fuel start).Depicts moves accepting start
      name := by
  have hmem {v : σ} := Search.mem_reachable_iff h (v := v)
  refine ⟨nameOf moves title fuel start, ?_, ?_, ?_, rfl, ?_⟩
  · intro u v hu hv he
    exact List.inj_on_of_nodup_map (nodup_map_nameOf h) (hmem.mpr hu) (hmem.mpr hv) he
  · intro q
    show q ∈ OrderedSet.ofList ((nameTable moves title fuel start).map (·.2)) ↔ _
    rw [OrderedSet.mem_ofList, nameTable_eq_map h, List.map_map, List.mem_map]
    exact exists_congr fun v => and_congr_left fun _ => hmem
  · intro e
    show e ∈ OrderedSet.ofList ((nameTable moves title fuel start).flatMap fun v =>
      v.1.2.map fun m => ⟨v.2, .symbol m.1, nameOf moves title fuel start m.2⟩) ↔ _
    rw [OrderedSet.mem_ofList, nameTable_eq_map h, List.flatMap_map, List.mem_flatMap]
    simp only [List.mem_map, Prod.exists]
    constructor
    · rintro ⟨v, hv, c, w, hcw, rfl⟩
      exact ⟨v, c, w, hmem.mp hv, hcw, rfl⟩
    · rintro ⟨v, c, w, hv, hcw, rfl⟩
      exact ⟨v, hmem.mpr hv, c, w, hcw, rfl⟩
  · intro q
    show q ∈ OrderedSet.ofList (((nameTable moves title fuel start).filter fun v =>
      accepting v.1.1).map (·.2)) ↔ _
    rw [OrderedSet.mem_ofList, nameTable_eq_map h, List.filter_map, List.map_map, List.mem_map]
    simp only [List.mem_filter, Function.comp_apply, hmem, and_assoc]

end Unfold

/-! ## Pictures -/

namespace Depicts

variable {A : Automaton} {moves : σ → List (Char × σ)} {accepting : σ → Bool} {start : σ}
  {name : σ → State}

/-- The transitions from the name of a vertex are its moves. -/
theorem mem_edges_name (h : A.Depicts moves accepting start name) {v : σ}
    (hv : Search.Reaches moves [start] v) {a : Label} {q : State} :
    ⟨name v, a, q⟩ ∈ A.edges ↔ ∃ c w, a = .symbol c ∧ (c, w) ∈ moves v ∧ q = name w := by
  rw [h.mem_edges]
  constructor
  · rintro ⟨u, c, w, hu, hcw, he⟩
    obtain ⟨hs, rfl, rfl⟩ := Edge.mk.inj he
    obtain rfl := h.injective u v hu hv hs.symm
    exact ⟨c, w, rfl, hcw, rfl⟩
  · rintro ⟨c, w, rfl, hcw, rfl⟩
    exact ⟨v, c, w, hv, hcw, rfl⟩

theorem mem_finals_name (h : A.Depicts moves accepting start name) {v : σ}
    (hv : Search.Reaches moves [start] v) : name v ∈ A.finals ↔ accepting v = true := by
  rw [h.mem_finals]
  constructor
  · rintro ⟨u, hu, ha, he⟩
    exact h.injective u v hu hv he ▸ ha
  · intro ha
    exact ⟨v, hv, ha, rfl⟩

theorem accessible_name (h : A.Depicts moves accepting start name) {v : σ}
    (hv : Search.Reaches moves [start] v) : A.Accessible (name v) := by
  induction hv with
  | root hv =>
    rw [List.mem_singleton.mp hv]
    exact accessible_initial h.initial
  | step hu ha ih =>
    exact ih.path (.symbol ((h.mem_edges_name hu).mpr ⟨_, _, rfl, ha, rfl⟩) (.refl _))

theorem accessible (h : A.Depicts moves accepting start name) {q : State} (hq : q ∈ A.states) :
    A.Accessible q := by
  obtain ⟨v, hv, rfl⟩ := (h.mem_states q).mp hq
  exact h.accessible_name hv

theorem not_epsilon (h : A.Depicts moves accepting start name) (p q : State) :
    ⟨p, .epsilon, q⟩ ∉ A.edges := by
  intro he
  obtain ⟨_, _, _, _, _, he⟩ := (h.mem_edges _).mp he
  exact absurd (congrArg Edge.label he) (by simp)

theorem deterministic (h : A.Depicts moves accepting start name)
    (hu : ∀ v c w w', (c, w) ∈ moves v → (c, w') ∈ moves v → w = w') : A.Deterministic := by
  refine ⟨h.not_epsilon, fun {p a q q'} he he' => ?_⟩
  obtain ⟨v, c, w, hv, hcw, hvw⟩ := (h.mem_edges _).mp he
  obtain ⟨rfl, rfl, rfl⟩ := Edge.mk.inj hvw
  obtain ⟨c', w', hc, hcw', rfl⟩ := (h.mem_edges_name hv).mp he'
  cases hc
  rw [hu v c w w' hcw hcw']

theorem valid (h : A.Depicts moves accepting start name) (hε : epsilonChar ∉ A.alphabet)
    (hsym : ∀ v c w, (c, w) ∈ moves v → c ∈ A.alphabet) : A.Valid where
  initial_mem q hq := by
    rw [h.initial] at hq
    exact (h.mem_states q).mpr ⟨start, .root List.mem_cons_self, Option.some.inj hq⟩
  final_mem q hq := by
    obtain ⟨v, hv, _, rfl⟩ := (h.mem_finals q).mp hq
    exact (h.mem_states _).mpr ⟨v, hv, rfl⟩
  source_mem e he := by
    obtain ⟨v, c, w, hv, _, rfl⟩ := (h.mem_edges e).mp he
    exact (h.mem_states _).mpr ⟨v, hv, rfl⟩
  target_mem e he := by
    obtain ⟨v, c, w, hv, hcw, rfl⟩ := (h.mem_edges e).mp he
    exact (h.mem_states _).mpr ⟨w, hv.step hcw, rfl⟩
  label_mem e he c hc := by
    obtain ⟨v, d, w, _, hdw, rfl⟩ := (h.mem_edges e).mp he
    cases hc
    exact hsym v _ w hdw
  epsilon_not_mem := hε

end Depicts

end Automaton

end RegularLanguages
