import RegularLanguages.Automaton.Minimal
import RegularLanguages.Proofs.Automaton.Completion
import RegularLanguages.Proofs.Refinement

/-!
# Merging states that mean the same

The refinement loop works on the transition function of a total automaton, so its blocks are the
classes of states with the same meaning. Each class is named after its least member, and `leastOf`
maps the automaton onto the merged one.

Results:
* `mem_edges_iff_next`: the transition function is the transitions.
* **`equivalent_iff_together`**: the blocks are the classes of equivalent states.
* `leastOf_equivalent`, `leastOf_le`, `leastOf_eq_iff`: what the least member of a class is.
* **`merged_languageFrom`**: a state of the merged automaton means what its class means.
* `merged_total`, `merged_accessible`, `merged_separated`.
-/

namespace RegularLanguages

namespace Automaton

variable {D : Automaton}

/-! ## The transition function -/

/-- The state to which a total automaton moves. -/
abbrev next (D : Automaton) : State → Char → State := D.transitionFunction.next

theorem next_eq (hD : D.Deterministic) {p q : State} {c : Char} (he : ⟨p, .symbol c, q⟩ ∈ D.edges) :
    D.next p c = q := by
  refine getD_ofList (k := (p, Label.symbol c)) ?_ ?_ p
  · rw [List.map_map]
    refine List.Nodup.map_on (fun e he f hf hef => ?_) D.edges.nodup_toList
    obtain ⟨hs, hl⟩ := Prod.mk.inj hef
    cases e; cases f
    subst hs hl
    rw [hD.target_unique he hf]
  · exact List.mem_map.mpr ⟨_, he, rfl⟩

theorem next_edge (hD : D.Total) {q : State} {c : Char} (hq : q ∈ D.states) (hc : c ∈ D.alphabet) :
    ⟨q, .symbol c, D.next q c⟩ ∈ D.edges := by
  obtain ⟨p, he⟩ := hD.complete q hq c hc
  rwa [next_eq hD.deterministic he]

theorem next_mem (hD : D.Total) {q : State} {c : Char} (hq : q ∈ D.states) (hc : c ∈ D.alphabet) :
    D.next q c ∈ D.states :=
  hD.valid.target_mem _ (next_edge hD hq hc)

/-- **The transition function is the transitions**, one for each state and symbol. -/
theorem mem_edges_iff_next (hD : D.Total) {p q : State} {c : Char} :
    ⟨p, .symbol c, q⟩ ∈ D.edges ↔ p ∈ D.states ∧ c ∈ D.alphabet ∧ q = D.next p c := by
  constructor
  · intro he
    exact ⟨hD.valid.source_mem _ he, hD.valid.label_mem _ he c rfl,
      (next_eq hD.deterministic he).symm⟩
  · rintro ⟨hp, hc, rfl⟩
    exact next_edge hD hp hc

theorem path_foldl_next (hD : D.Total) : ∀ {w : Word} {p : State}, p ∈ D.states →
    (∀ c ∈ w, c ∈ D.alphabet) → D.Path p w (w.foldl D.next p)
  | [], p, _, _ => .refl p
  | c :: w, p, hp, hw => by
    have hc : c ∈ D.alphabet := hw c List.mem_cons_self
    exact .symbol (next_edge hD hp hc) (path_foldl_next hD (next_mem hD hp hc)
      fun d hd => hw d (List.mem_cons_of_mem c hd))

/-- The words of a state are those over the alphabet that the transition function takes to a
final state. -/
theorem languageFrom_iff_foldl (hD : D.Total) {p : State} (hp : p ∈ D.states) {w : Word} :
    D.languageFrom p w ↔ (∀ c ∈ w, c ∈ D.alphabet) ∧ w.foldl D.next p ∈ D.finals := by
  constructor
  · rintro ⟨q, hq, h⟩
    have hw := path_symbol_mem hD.valid h
    refine ⟨hw, ?_⟩
    rwa [← path_unique hD.deterministic h (path_foldl_next hD hp hw)]
  · rintro ⟨hw, hf⟩
    exact ⟨_, hf, path_foldl_next hD hp hw⟩

/-- Telling states apart by the transition function is telling them apart by their words. -/
theorem indistinguishable_iff_equivalent (hD : D.Total) {p q : State} (hp : p ∈ D.states)
    (hq : q ∈ D.states) :
    Refinement.Indistinguishable D.alphabet.toList D.next D.isFinal p q ↔ D.Equivalent p q := by
  constructor
  · intro h w
    rw [languageFrom_iff_foldl hD hp, languageFrom_iff_foldl hD hq]
    refine and_congr_right fun hw => ?_
    have := h w hw
    rwa [isFinal, isFinal, decide_eq_decide] at this
  · intro h w hw
    have := h w
    rw [languageFrom_iff_foldl hD hp, languageFrom_iff_foldl hD hq,
      and_congr_right_iff] at this
    rw [isFinal, isFinal, decide_eq_decide]
    exact this hw

/-! ## Blocks and their least members -/

theorem blocks_partitions (hD : D.Total) :
    Refinement.Partitions D.states.toList D.blocks :=
  Refinement.refine_partition D.states.nodup_toList fun _ hq _ hc => next_mem hD hq hc

/-- **The blocks are the classes of states that mean the same.** -/
theorem equivalent_iff_together (hD : D.Total) {p q : State} (hp : p ∈ D.states)
    (hq : q ∈ D.states) : D.Equivalent p q ↔ Refinement.Together D.blocks p q := by
  rw [← indistinguishable_iff_equivalent hD hp hq]
  exact (Refinement.together_refine_iff D.states.nodup_toList
    (fun _ hq _ hc => next_mem hD hq hc) hp hq).symm

/-- The least member of the class of a state. -/
def leastOf (D : Automaton) (q : State) : State :=
  (Std.HashMap.ofList (D.blocks.flatMap fun block => block.map fun p => (p, block.headD p))).getD
    q q

theorem leastOf_eq_headD (hD : D.Total) {block : List State} {q : State} (hb : block ∈ D.blocks)
    (hq : q ∈ block) : D.leastOf q = block.headD q := by
  have hkeys : (D.blocks.flatMap fun block => block.map fun p => (p, block.headD p)).map
      Prod.fst = D.blocks.flatten := by
    rw [List.map_flatMap]
    simp only [List.map_map, Function.comp_def, List.map_id']
    rw [List.flatMap_id']
  refine getD_ofList ?_ ?_ q
  · rw [hkeys]
    exact (blocks_partitions hD).flatten_perm.nodup_iff.mpr D.states.nodup_toList
  · exact List.mem_flatMap.mpr ⟨block, hb, List.mem_map.mpr ⟨q, hq, rfl⟩⟩

/-- The least member of a class is the first state of its block. -/
theorem exists_block_leastOf (hD : D.Total) {q : State} (hq : q ∈ D.states) :
    ∃ rest, D.leastOf q :: rest ∈ D.blocks ∧ q ∈ D.leastOf q :: rest := by
  obtain ⟨block, hb, hqb⟩ := (blocks_partitions hD).exists_block hq
  have hl := leastOf_eq_headD hD hb hqb
  cases block with
  | nil => exact absurd rfl ((blocks_partitions hD).ne_nil _ hb)
  | cons h rest =>
    rw [List.headD_cons] at hl
    rw [hl]
    exact ⟨rest, hb, hqb⟩

theorem leastOf_mem (hD : D.Total) {q : State} (hq : q ∈ D.states) : D.leastOf q ∈ D.states := by
  obtain ⟨rest, hb, _⟩ := exists_block_leastOf hD hq
  exact (blocks_partitions hD).mem_states hb List.mem_cons_self

theorem leastOf_equivalent (hD : D.Total) {q : State} (hq : q ∈ D.states) :
    D.Equivalent (D.leastOf q) q := by
  obtain ⟨rest, hb, hqb⟩ := exists_block_leastOf hD hq
  exact (equivalent_iff_together hD (leastOf_mem hD hq) hq).mpr
    ⟨_, hb, List.mem_cons_self, hqb⟩

/-- The blocks keep the order of the states, so their first states are the least ones. -/
theorem leastOf_le (hD : D.Total) {p q : State} (hp : p ∈ D.states) (hq : q ∈ D.states)
    (h : D.Equivalent p q) : (compare (D.leastOf q) p).isLE = true := by
  obtain ⟨rest, hb, hqb⟩ := exists_block_leastOf hD hq
  obtain ⟨block, hb', hpb', hqb'⟩ := (equivalent_iff_together hD hp hq).mp h
  obtain rfl := (blocks_partitions hD).eq_of_mem D.states.nodup_toList hb hb' hqb hqb'
  have hsorted := D.states.sorted.sublist ((blocks_partitions hD).sublist _ hb)
  rcases List.mem_cons.mp hpb' with rfl | hpr
  · simp
  · rw [(List.pairwise_cons.mp hsorted).1 p hpr]
    rfl

theorem leastOf_eq_iff (hD : D.Total) {p q : State} (hp : p ∈ D.states) (hq : q ∈ D.states) :
    D.leastOf p = D.leastOf q ↔ D.Equivalent p q := by
  constructor
  · intro h w
    rw [← leastOf_equivalent hD hp w, h, leastOf_equivalent hD hq w]
  · intro h
    obtain ⟨rest, hb, hqb⟩ := exists_block_leastOf hD hq
    obtain ⟨block, hb', hpb', hqb'⟩ := (equivalent_iff_together hD hp hq).mp h
    obtain rfl := (blocks_partitions hD).eq_of_mem D.states.nodup_toList hb hb' hqb hqb'
    exact leastOf_eq_headD hD hb hpb'

/-! ## The merged automaton -/

theorem mem_states_merged (hD : D.Total) {m : State} :
    m ∈ D.merged.states ↔ ∃ q ∈ D.states, D.leastOf q = m := by
  show m ∈ OrderedSet.ofList (D.blocks.filterMap List.head?) ↔ _
  rw [OrderedSet.mem_ofList, List.mem_filterMap]
  constructor
  · rintro ⟨block, hb, hm⟩
    have hmb : m ∈ block := List.mem_of_mem_head? hm
    refine ⟨m, (blocks_partitions hD).mem_states hb hmb, ?_⟩
    rw [leastOf_eq_headD hD hb hmb, List.headD_eq_head?_getD, hm]
    rfl
  · rintro ⟨q, hq, rfl⟩
    obtain ⟨rest, hb, _⟩ := exists_block_leastOf hD hq
    exact ⟨_, hb, rfl⟩

theorem mem_states_of_merged (hD : D.Total) {m : State} (hm : m ∈ D.merged.states) :
    m ∈ D.states ∧ D.leastOf m = m := by
  obtain ⟨q, hq, rfl⟩ := (mem_states_merged hD).mp hm
  have hl := leastOf_mem hD hq
  exact ⟨hl, (leastOf_eq_iff hD hl hq).mpr (leastOf_equivalent hD hq)⟩

/-- The states of the merged automaton are the states that are least in their class. -/
theorem mem_states_merged_iff_least (hD : D.Total) {m : State} :
    m ∈ D.merged.states ↔
      m ∈ D.states ∧ ∀ p ∈ D.states, D.Equivalent p m → (compare m p).isLE = true := by
  constructor
  · intro hm
    obtain ⟨hmD, hl⟩ := mem_states_of_merged hD hm
    exact ⟨hmD, fun p hp h => hl ▸ leastOf_le hD hp hmD h⟩
  · rintro ⟨hm, hle⟩
    refine (mem_states_merged hD).mpr ⟨m, hm, ?_⟩
    have h1 := hle (D.leastOf m) (leastOf_mem hD hm) (leastOf_equivalent hD hm)
    have h2 := leastOf_le hD hm hm fun w => Iff.rfl
    exact Std.LawfulEqCmp.eq_of_compare (Std.OrientedCmp.isLE_antisymm h2 h1)

theorem mem_edges_merged {e : Edge} :
    e ∈ D.merged.edges ↔ ∃ m ∈ D.merged.states, ∃ c ∈ D.alphabet,
      e = ⟨m, .symbol c, D.leastOf (D.next m c)⟩ := by
  show e ∈ OrderedSet.ofList (D.merged.states.toList.flatMap fun q =>
    D.alphabet.toList.map fun c => ⟨q, .symbol c, D.leastOf (D.next q c)⟩) ↔ _
  simp only [OrderedSet.mem_ofList, List.mem_flatMap, List.mem_map, OrderedSet.mem_toList,
    eq_comm (a := e)]

theorem mem_finals_merged {m : State} :
    m ∈ D.merged.finals ↔ m ∈ D.merged.states ∧ m ∈ D.finals := by
  show m ∈ D.merged.states.filter D.isFinal ↔ _
  rw [OrderedSet.mem_filter, isFinal, decide_eq_true_eq]

@[simp] theorem alphabet_merged (D : Automaton) : D.merged.alphabet = D.alphabet := rfl

theorem initial_merged (D : Automaton) : D.merged.initial = D.initial.map D.leastOf := rfl

/-- Where no two states mean the same, merging changes nothing. -/
theorem merged_eq_self (hD : D.Total) (hsep : D.Separated) : D.merged = D := by
  have hleast {q : State} (hq : q ∈ D.states) : D.leastOf q = q :=
    hsep _ (leastOf_mem hD hq) q hq (leastOf_equivalent hD hq)
  have hstates (q : State) : q ∈ D.merged.states ↔ q ∈ D.states := by
    refine ⟨fun hq => (mem_states_of_merged hD hq).1, fun hq => ?_⟩
    exact (mem_states_merged hD).mpr ⟨q, hq, hleast hq⟩
  have hinitial : D.initial.map D.leastOf = D.initial := by
    cases hi : D.initial with
    | none => rfl
    | some i => rw [Option.map_some, hleast (hD.valid.initial_mem i hi)]
  refine Automaton.ext_mem hstates rfl (fun e => ?_) hinitial fun q => ?_
  · rw [mem_edges_merged]
    constructor
    · rintro ⟨q, hq, c, hc, rfl⟩
      have hq := (hstates q).mp hq
      rw [hleast (next_mem hD hq hc)]
      exact next_edge hD hq hc
    · obtain ⟨p, a, q⟩ := e
      intro he
      cases a with
      | epsilon => exact absurd he (hD.deterministic.not_epsilon p q)
      | symbol c =>
        obtain ⟨hp, hc, rfl⟩ := (mem_edges_iff_next hD).mp he
        exact ⟨p, (hstates p).mpr hp, c, hc, by rw [hleast (next_mem hD hp hc)]⟩
  · rw [mem_finals_merged, hstates]
    exact and_iff_right_of_imp (hD.valid.final_mem q)

theorem merged_total (hD : D.Total) : D.merged.Total where
  valid := {
    initial_mem := fun q hq => by
      obtain ⟨i, hi, rfl⟩ := Option.map_eq_some_iff.mp hq
      exact (mem_states_merged hD).mpr ⟨i, hD.valid.initial_mem i hi, rfl⟩
    final_mem := fun q hq => (mem_finals_merged.mp hq).1
    source_mem := fun e he => by
      obtain ⟨m, hm, c, _, rfl⟩ := mem_edges_merged.mp he
      exact hm
    target_mem := fun e he => by
      obtain ⟨m, hm, c, hc, rfl⟩ := mem_edges_merged.mp he
      exact (mem_states_merged hD).mpr
        ⟨_, next_mem hD (mem_states_of_merged hD hm).1 hc, rfl⟩
    label_mem := fun e he c hc => by
      obtain ⟨m, _, d, hd, rfl⟩ := mem_edges_merged.mp he
      cases hc
      exact hd
    epsilon_not_mem := hD.valid.epsilon_not_mem }
  deterministic := by
    refine ⟨fun p q he => ?_, fun {p a q q'} he he' => ?_⟩
    · obtain ⟨_, _, _, _, he⟩ := mem_edges_merged.mp he
      exact absurd (congrArg Edge.label he) (by simp)
    · obtain ⟨_, _, c, _, he⟩ := mem_edges_merged.mp he
      obtain ⟨rfl, rfl, rfl⟩ := Edge.mk.inj he
      obtain ⟨_, _, d, _, he'⟩ := mem_edges_merged.mp he'
      obtain ⟨rfl, hcd, rfl⟩ := Edge.mk.inj he'
      cases hcd
      rfl
  complete := fun m hm c hc => ⟨_, mem_edges_merged.mpr ⟨m, hm, c, hc, rfl⟩⟩

/-- **A state of the merged automaton means what every member of its class means.** -/
theorem merged_languageFrom (hD : D.Total) : ∀ {w : Word} {q : State}, q ∈ D.states →
    (D.merged.languageFrom (D.leastOf q) w ↔ D.languageFrom q w)
  | [], q, hq => by
    have hm : D.leastOf q ∈ D.merged.states := (mem_states_merged hD).mpr ⟨q, hq, rfl⟩
    rw [languageFrom_nil (merged_total hD).deterministic, mem_finals_merged,
      ← languageFrom_nil hD.deterministic, leastOf_equivalent hD hq]
    exact and_iff_right hm
  | c :: w, q, hq => by
    have hl := leastOf_mem hD hq
    have hm : D.leastOf q ∈ D.merged.states := (mem_states_merged hD).mpr ⟨q, hq, rfl⟩
    by_cases hc : c ∈ D.alphabet
    · have he := mem_edges_merged.mpr ⟨_, hm, c, hc, rfl⟩
      rw [languageFrom_cons_of_edge (merged_total hD).deterministic he,
        merged_languageFrom hD (next_mem hD hl hc),
        ← languageFrom_cons_of_edge hD.deterministic (next_edge hD hl hc)]
      exact leastOf_equivalent hD hq _
    · refine iff_of_false (fun ⟨_, _, h⟩ => hc ?_) fun ⟨_, _, h⟩ => hc ?_
      · exact path_symbol_mem (merged_total hD).valid h c List.mem_cons_self
      · exact path_symbol_mem hD.valid h c List.mem_cons_self

theorem merged_language (hD : D.Total) (w : Word) : D.merged.language w ↔ D.language w :=
  language_of_initial_map (initial_merged D) fun i hi =>
    merged_languageFrom hD (hD.valid.initial_mem i hi)

/-- Paths are mapped onto paths between the least members. -/
theorem merged_path (hD : D.Total) {p q : State} {w : Word} (h : D.Path p w q) :
    D.merged.Path (D.leastOf p) w (D.leastOf q) := by
  induction h with
  | refl => exact .refl _
  | epsilon he _ _ => exact absurd he (hD.deterministic.not_epsilon _ _)
  | @symbol p r _ c _ he _ ih =>
    obtain ⟨hp, hc, rfl⟩ := (mem_edges_iff_next hD).mp he
    have hl := leastOf_mem hD hp
    have hnext : D.leastOf (D.next (D.leastOf p) c) = D.leastOf (D.next p c) := by
      refine (leastOf_eq_iff hD (next_mem hD hl hc) (next_mem hD hp hc)).mpr fun w => ?_
      rw [← languageFrom_cons_of_edge hD.deterministic (next_edge hD hl hc),
        ← languageFrom_cons_of_edge hD.deterministic he]
      exact leastOf_equivalent hD hp _
    have hm : D.leastOf p ∈ D.merged.states := (mem_states_merged hD).mpr ⟨p, hp, rfl⟩
    rw [← hnext] at ih
    exact .symbol (mem_edges_merged.mpr ⟨_, hm, c, hc, rfl⟩) ih

theorem merged_accessible (hD : D.Total) (hacc : ∀ q ∈ D.states, D.Accessible q) {m : State}
    (hm : m ∈ D.merged.states) : D.merged.Accessible m := by
  obtain ⟨q, hq, rfl⟩ := (mem_states_merged hD).mp hm
  exact (hacc q hq).map (initial_merged D) fun _ _ _ => merged_path hD

theorem merged_separated (hD : D.Total) : D.merged.Separated := by
  intro p hp q hq h
  obtain ⟨hp', hpl⟩ := mem_states_of_merged hD hp
  obtain ⟨hq', hql⟩ := mem_states_of_merged hD hq
  rw [← hpl, ← hql, leastOf_eq_iff hD hp' hq']
  intro w
  rw [← merged_languageFrom hD hp', ← merged_languageFrom hD hq', hpl, hql]
  exact h w

end Automaton

end RegularLanguages
