import RegularLanguages.Automaton.Canonical
import RegularLanguages.Proofs.Automaton.Merging
import RegularLanguages.Proofs.Automaton.Reachability
import RegularLanguages.Proofs.Automaton.Renaming

/-!
# Numbering in the order of discovery

The search from the initial state follows the transitions of a state in the order of their
symbols. In a total automaton these are one for each symbol, so what the search finds first
depends on the moves alone: when the states are renamed, the same states are found in the same
order, and numbering them forgets the renaming.

Results:
* `edgesFrom_eq`: the transitions from a state of a total automaton, in order.
* `mem_discovered`, `inDiscoveryOrder_discovered`, `InDiscoveryOrder.eq_discovered`: what is found
  and in which order.
* **`numberedByDiscovery_rename`**: numbering forgets the names.
* `discovered_numberedByDiscovery`: the search of the numbered automaton finds `q0, q1, …`.
-/

namespace RegularLanguages

namespace Automaton

variable {D : Automaton} {f : State → State}

/-! ## The order of the transitions from a state -/

theorem compare_symbol_lt {c d : Char} (h : compare c d = .lt) :
    compare (Label.symbol c) (Label.symbol d) = .lt := by
  have hlt : c < d := compareOfLessAndEq_eq_lt.mp h
  rw [Char.lt_def, UInt32.lt_iff_toNat_lt] at hlt
  show compare (c.toNat + 1) (d.toNat + 1) = .lt
  rw [Nat.compare_eq_lt]
  exact Nat.succ_lt_succ hlt

/-- Transitions from one state that follow each other have labels that follow each other. -/
theorem label_lt_of_lt (hD : D.Deterministic) {d e : Edge} (hd : d ∈ D.edges) (he : e ∈ D.edges)
    (hs : d.source = e.source) (h : compare d e = .lt) : compare d.label e.label = .lt := by
  have hcmp : (compare d.source e.source).then
      ((compare d.label e.label).then (compare d.target e.target)) = .lt := h
  have hself : compare e.source e.source = .eq := Std.ReflCmp.compare_self
  rw [hs, hself, Ordering.then_eq_lt] at hcmp
  rcases hcmp with hlt | ⟨_, hlt⟩
  · exact absurd hlt (by simp)
  · rcases Ordering.then_eq_lt.mp hlt with hlt | ⟨heq, hlt⟩
    · exact hlt
    · -- equal labels would make the targets equal
      have hl : d.label = e.label := Std.LawfulEqCmp.eq_of_compare heq
      have ht : d.target = e.target := by
        rcases d with ⟨s, a, q⟩
        rcases e with ⟨s', a', q'⟩
        subst hs hl
        exact hD.target_unique hd he
      rw [ht] at hlt
      exact absurd hlt (by simp)

theorem sorted_labels (hD : D.Deterministic) (q : State) :
    ((D.edgesFrom q).map Prod.fst).Pairwise fun a b => compare a b = .lt := by
  unfold edgesFrom
  rw [List.map_map, List.pairwise_map]
  refine List.Pairwise.imp_of_mem ?_ (D.edges.sorted.filter _)
  intro d e hd he h
  rw [List.mem_filter, decide_eq_true_eq] at hd he
  exact label_lt_of_lt hD hd.1 he.1 (hd.2.trans he.2.symm) h

theorem map_fst_edgesFrom (hD : D.Total) {q : State} (hq : q ∈ D.states) :
    (D.edgesFrom q).map Prod.fst = D.alphabet.toList.map Label.symbol := by
  refine OrderedSet.eq_of_sorted (sorted_labels hD.deterministic q) ?_ fun a => ?_
  · exact D.alphabet.sorted.map _ fun _ _ => compare_symbol_lt
  · simp only [List.mem_map, Prod.exists, exists_and_right, exists_eq_right, mem_edgesFrom]
    constructor
    · rintro ⟨p, he⟩
      cases a with
      | epsilon => exact absurd he (hD.deterministic.not_epsilon q p)
      | symbol c => exact ⟨c, hD.valid.label_mem _ he c rfl, rfl⟩
    · rintro ⟨c, hc, rfl⟩
      exact hD.complete q hq c hc

/-- **The transitions from a state of a total automaton** are one for each symbol, in the order
of the symbols. -/
theorem edgesFrom_eq (hD : D.Total) {q : State} (hq : q ∈ D.states) :
    D.edgesFrom q = D.alphabet.toList.map fun c => (.symbol c, D.next q c) := by
  let target (a : Label) : State := D.transitionFunction.targets.getD (q, a) q
  have hlook : ∀ m ∈ D.edgesFrom q, m = (m.1, target m.1) := by
    rintro ⟨a, p⟩ hm
    have he := mem_edgesFrom.mp hm
    cases a with
    | epsilon => exact absurd he (hD.deterministic.not_epsilon q p)
    | symbol c => exact Prod.ext rfl (next_eq hD.deterministic he).symm
  calc D.edgesFrom q
      = (D.edgesFrom q).map fun m => (m.1, target m.1) :=
        (List.map_id _).symm.trans (List.map_congr_left hlook)
    _ = ((D.edgesFrom q).map Prod.fst).map fun a => (a, target a) := by rw [List.map_map]; rfl
    _ = (D.alphabet.toList.map Label.symbol).map fun a => (a, target a) := by
        rw [map_fst_edgesFrom hD hq]
    _ = D.alphabet.toList.map fun c => (.symbol c, D.next q c) := by rw [List.map_map]; rfl

theorem targets_edgesOf (hD : D.Total) {q : State} (hq : q ∈ D.states) :
    Search.targets D.adjacency.edgesOf q = D.alphabet.toList.map (D.next q) := by
  rw [Search.targets, edgesOf_adjacency, edgesFrom_eq hD hq, List.map_map]
  rfl

theorem successor?_eq (hD : D.Total) {q : State} {c : Char} (hq : q ∈ D.states)
    (hc : c ∈ D.alphabet) : D.successor? q c = some (D.next q c) :=
  successor?_of_edge hD.deterministic ((mem_edges_iff_next hD).mpr ⟨hq, hc, rfl⟩)

/-- The targets of the transitions from a state, in the order of the symbols. -/
theorem filterMap_successor? (hD : D.Total) {q : State} (hq : q ∈ D.states) :
    D.alphabet.toList.filterMap (D.successor? q) = Search.targets D.adjacency.edgesOf q := by
  rw [targets_edgesOf hD hq, ← List.filterMap_eq_map]
  exact List.filterMap_congr fun c hc => successor?_eq hD hq hc

/-! ## What is discovered -/

/-- The accessible states in the order of their discovery. -/
def discovered (D : Automaton) : List State :=
  Search.reachable D.adjacency.edgesOf (D.adjacency.size + 1) D.initial.toList

theorem bounded_discovered (D : Automaton) :
    Search.Bounded D.adjacency.edgesOf (D.adjacency.size + 1) D.initial.toList := by
  obtain ⟨all, hroots, hall, hle⟩ := bounded_edgesOf D.initial.toList (A := D)
  refine ⟨all, hroots, hall, hle.trans ?_⟩
  have : D.initial.toList.length ≤ 1 := by cases D.initial <;> simp
  omega

theorem reaches_initial_iff {q : State} :
    Search.Reaches D.adjacency.edgesOf D.initial.toList q ↔ D.Accessible q := by
  rw [reaches_edgesOf_iff]
  simp only [Option.mem_toList, Accessible]
  exact ⟨fun ⟨p, hp, w, h⟩ => ⟨p, w, hp, h⟩, fun ⟨p, w, hp, h⟩ => ⟨p, hp, w, h⟩⟩

theorem mem_discovered {q : State} : q ∈ D.discovered ↔ D.Accessible q :=
  (Search.mem_reachable_iff (bounded_discovered D)).trans reaches_initial_iff

theorem nodup_discovered (D : Automaton) : D.discovered.Nodup :=
  Search.nodup_reachable (bounded_discovered D)

/-- The list has the initial state and then the successors of its own entries, in order and each
where it occurs first. -/
def InDiscoveryOrder (D : Automaton) (qs : List State) : Prop :=
  qs = (D.initial.toList ++
    qs.flatMap fun q => D.alphabet.toList.filterMap (D.successor? q)).eraseDups

theorem inDiscoveryOrder_iff (hD : D.Total) {qs : List State} (hqs : ∀ q ∈ qs, D.Accessible q) :
    D.InDiscoveryOrder qs ↔
      qs = Search.discoveredFrom D.adjacency.edgesOf D.initial.toList qs := by
  have hsucc : (qs.flatMap fun q => D.alphabet.toList.filterMap (D.successor? q)) =
      qs.flatMap (Search.targets D.adjacency.edgesOf) :=
    List.flatMap_congr fun q hq => filterMap_successor? hD ((hqs q hq).mem_states hD.valid)
  unfold InDiscoveryOrder Search.discoveredFrom
  rw [hsucc]

theorem inDiscoveryOrder_discovered (hD : D.Total) : D.InDiscoveryOrder D.discovered :=
  (inDiscoveryOrder_iff hD fun _ => mem_discovered.mp).mpr
    (Search.reachable_eq (bounded_discovered D))

/-- **There is only one order of discovery.** -/
theorem InDiscoveryOrder.eq_discovered (hD : D.Total) {qs : List State}
    (h : D.InDiscoveryOrder qs) (hqs : ∀ q ∈ qs, D.Accessible q) : qs = D.discovered :=
  Search.eq_of_eq_discoveredFrom ((inDiscoveryOrder_iff hD hqs).mp h)
    (Search.reachable_eq (bounded_discovered D))
    (fun q hq => reaches_initial_iff.mpr (hqs q hq))
    fun _ hq => reaches_initial_iff.mpr (mem_discovered.mp hq)

/-! ## Renaming -/

theorem next_rename (hD : D.Total) (hf : D.Faithful f) {q : State} {c : Char} (hq : q ∈ D.states)
    (hc : c ∈ D.alphabet) : (D.rename f).next (f q) c = f (D.next q c) :=
  next_eq (rename_total hD hf).deterministic
    (mem_edges_rename.mpr ⟨_, next_edge hD hq hc, rfl⟩)

theorem size_adjacency_rename (hD : D.Valid) (hf : D.Faithful f) :
    (D.rename f).adjacency.size = D.adjacency.size := by
  have hn : (D.edges.toList.map fun e => (⟨f e.source, e.label, f e.target⟩ : Edge)).Nodup := by
    refine List.Nodup.map_on (fun d hd e he h => ?_) D.edges.nodup_toList
    obtain ⟨hs, hl, ht⟩ := Edge.mk.inj h
    have hs' := hf _ (hD.source_mem d hd) _ (hD.source_mem e he) hs
    have ht' := hf _ (hD.target_mem d hd) _ (hD.target_mem e he) ht
    cases d; cases e
    simp_all
  exact (OrderedSet.size_ofList hn).trans (List.length_map _)

/-- The search of a renamed automaton finds the renamed states in the same order. -/
theorem discovered_rename (hD : D.Total) (hf : D.Faithful f) :
    (D.rename f).discovered = D.discovered.map f := by
  have hroots : (D.rename f).initial.toList = D.initial.toList.map f := by
    rw [initial_rename]
    cases D.initial <;> rfl
  unfold discovered
  rw [size_adjacency_rename hD.valid hf, hroots]
  refine Search.reachable_map (P := (· ∈ D.states)) (fun p q hp hq => hf p hp q hq) ?_ ?_ _ ?_
  · intro p hp q hq
    rw [targets_edgesOf hD hp, List.mem_map] at hq
    obtain ⟨c, hc, rfl⟩ := hq
    exact next_mem hD hp hc
  · intro p hp
    rw [targets_edgesOf (rename_total hD hf) (mem_states_rename.mpr ⟨p, hp, rfl⟩),
      targets_edgesOf hD hp, List.map_map]
    exact List.map_congr_left fun c hc => next_rename hD hf hp hc
  · intro p hp
    exact hD.valid.initial_mem p (Option.mem_toList.mp hp)

/-! ## Numbers -/

/-- The new name of a state. -/
def number (D : Automaton) (q : State) : State :=
  (Std.HashMap.ofList (D.discovered.zipIdx.map fun (q, i) => (q, State.numbered "q" i))).getD q q

theorem numberedByDiscovery_eq (D : Automaton) : D.numberedByDiscovery = D.rename D.number := rfl

theorem number_of_getElem? {q : State} {i : Nat} (h : D.discovered[i]? = some q) :
    D.number q = State.numbered "q" i := by
  have hkeys : (D.discovered.zipIdx.map fun (q, i) => (q, State.numbered "q" i)).map Prod.fst =
      D.discovered := by
    rw [List.map_map]
    exact List.zipIdx_map_fst 0 D.discovered
  have hn : ((D.discovered.zipIdx.map fun (q, i) => (q, State.numbered "q" i)).map
      Prod.fst).Nodup := by
    rw [hkeys]
    exact nodup_discovered D
  refine getD_ofList hn ?_ q
  exact List.mem_map.mpr ⟨(q, i), List.mem_zipIdx_iff_getElem?.mpr h, rfl⟩

theorem map_number_discovered (D : Automaton) :
    D.discovered.map D.number = (List.range D.discovered.length).map (State.numbered "q") := by
  refine List.ext_getElem? fun i => ?_
  rw [List.getElem?_map, List.getElem?_map]
  by_cases hi : i < D.discovered.length
  · rw [List.getElem?_range hi, List.getElem?_eq_getElem hi]
    exact congrArg some (number_of_getElem? (List.getElem?_eq_getElem hi))
  · rw [List.getElem?_eq_none (by omega), List.getElem?_eq_none (by simpa using hi)]
    rfl

/-- The numbers of the renamed states are those of the states. -/
theorem number_rename (hD : D.Total) (hf : D.Faithful f) {q : State} (hq : D.Accessible q) :
    (D.rename f).number (f q) = D.number q := by
  obtain ⟨i, hi⟩ := List.mem_iff_getElem?.mp (mem_discovered.mpr hq)
  have hi' : (D.rename f).discovered[i]? = some (f q) := by
    rw [discovered_rename hD hf, List.getElem?_map, hi]
    rfl
  rw [number_of_getElem? hi, number_of_getElem? hi']

section Accessible

variable (hD : D.Total) (hacc : ∀ q ∈ D.states, D.Accessible q)
include hD hacc

/-- **Numbering forgets the names.** -/
theorem numberedByDiscovery_rename (hf : D.Faithful f) :
    (D.rename f).numberedByDiscovery = D.numberedByDiscovery := by
  rw [numberedByDiscovery_eq, numberedByDiscovery_eq, rename_rename]
  exact rename_congr hD.valid fun q hq => number_rename hD hf (hacc q hq)

omit hD in
theorem faithful_number : D.Faithful D.number := by
  intro p hp q hq h
  obtain ⟨i, hi⟩ := List.mem_iff_getElem?.mp (mem_discovered.mpr (hacc p hp))
  obtain ⟨j, hj⟩ := List.mem_iff_getElem?.mp (mem_discovered.mpr (hacc q hq))
  rw [number_of_getElem? hi, number_of_getElem? hj] at h
  rw [State.numbered_injective h, hj] at hi
  exact (Option.some.inj hi).symm

theorem states_eq_ofList_discovered : D.states = .ofList D.discovered := by
  refine OrderedSet.ext_mem fun q => ?_
  rw [OrderedSet.mem_ofList, mem_discovered]
  exact ⟨hacc q, fun hq => hq.mem_states hD.valid⟩

theorem size_eq_length_discovered : D.size = D.discovered.length := by
  rw [size, states_eq_ofList_discovered hD hacc]
  exact OrderedSet.size_ofList (nodup_discovered D)

/-- The search of the numbered automaton finds its states in the order of their numbers. -/
theorem discovered_numberedByDiscovery :
    D.numberedByDiscovery.discovered =
      (List.range D.numberedByDiscovery.size).map (State.numbered "q") := by
  have hf := faithful_number hacc
  have hd : (D.rename D.number).discovered = D.discovered.map D.number :=
    discovered_rename hD hf
  rw [numberedByDiscovery_eq, size_eq_length_discovered (rename_total hD hf)
    (fun _ => rename_accessible hacc), hd, List.length_map, map_number_discovered]

end Accessible

end Automaton

end RegularLanguages
