import RegularLanguages.Automaton.Stored
import RegularLanguages.Proofs.Automaton.Editing
import RegularLanguages.Proofs.Automaton.TransitionMap

/-!
# What is stored is the automaton

The edits change what is stored in place, one field after the other. Seen through `toAutomaton`
each of them does what it does to the five sets (`Simulates`), and it leaves no empty entry. As a
set of transitions is stored in one way only, what is stored depends on the automaton alone, and
an edit that is refused has changed nothing.

Results:
* `eq_of_toAutomaton_eq`: an automaton is stored in one way only.
* `run_checkState`, `run_checkLabel`, `run_mapM_checkState`: checks tell what they tell of the
  automaton, and change nothing.
* **`simulates`**, `attempt_of_error`: one edit, carried out or refused.
* **`simulates_all`**: a list of edits.
* **`attemptAll_ofSymbols`**: all that edits of an automaton without states lead to.
-/

namespace RegularLanguages.StoredAutomaton

open Automaton (Edit Report)

variable {S T : StoredAutomaton} {p q : State} {a : Label} {c : Char} {e : Edge}

/-! ## The automaton that is stored -/

@[simp] theorem states_toAutomaton (S : StoredAutomaton) : S.toAutomaton.states = S.states := rfl

@[simp] theorem alphabet_toAutomaton (S : StoredAutomaton) :
    S.toAutomaton.alphabet = S.alphabet := rfl

@[simp] theorem initial_toAutomaton (S : StoredAutomaton) :
    S.toAutomaton.initial = S.initial := rfl

@[simp] theorem finals_toAutomaton (S : StoredAutomaton) : S.toAutomaton.finals = S.finals := rfl

@[simp] theorem mem_edges_toAutomaton :
    e ∈ S.toAutomaton.edges ↔ e.target ∈ S.transitions.successors e.source e.label := by
  rw [toAutomaton, OrderedSet.mem_ofList, TransitionMap.mem_edges]

/-- The stored transitions are visited as those of the automaton. -/
theorem toList_edges_toAutomaton (S : StoredAutomaton) :
    S.toAutomaton.edges.toList = S.transitions.edges :=
  OrderedSet.eq_of_sorted S.toAutomaton.edges.sorted S.transitions.pairwise_edges fun _ =>
    OrderedSet.mem_ofList

@[simp] theorem successors_toAutomaton (S : StoredAutomaton) (p : State) (a : Label) :
    S.toAutomaton.successors p a = S.transitions.successors p a :=
  OrderedSet.ext_mem fun q => by rw [Automaton.mem_successors, mem_edges_toAutomaton]

/-- What is stored, is stored without empty entries and promises what automata promise. -/
structure WellFormed (S : StoredAutomaton) : Prop where
  valid : S.toAutomaton.Valid
  normal : S.transitions.Normal

/-- **An automaton is stored in one way only.** -/
theorem eq_of_toAutomaton_eq (hS : S.transitions.Normal) (hT : T.transitions.Normal)
    (h : S.toAutomaton = T.toAutomaton) : S = T := by
  obtain ⟨states, alphabet, transitions, initial, finals⟩ := S
  obtain ⟨states', alphabet', transitions', initial', finals'⟩ := T
  obtain rfl : states = states' := congrArg Automaton.states h
  obtain rfl : alphabet = alphabet' := congrArg Automaton.alphabet h
  obtain rfl : initial = initial' := congrArg Automaton.initial h
  obtain rfl : finals = finals' := congrArg Automaton.finals h
  have htransitions : transitions = transitions' := hS.ext hT fun p a => by
    have hsuccessors := congrArg (Automaton.successors · p a) h
    simpa only [successors_toAutomaton] using hsuccessors
  rw [htransitions]

theorem toAutomaton_void (alphabet : OrderedSet Char) :
    (void alphabet).toAutomaton = Automaton.void alphabet := by
  have hedges : (void alphabet).toAutomaton.edges = ∅ := OrderedSet.ext_mem fun e => by
    rw [mem_edges_toAutomaton]
    exact iff_of_false TransitionMap.mem_successors_empty (OrderedSet.not_mem_empty e)
  unfold Automaton.void
  rw [← hedges]
  rfl

theorem wellFormed_void {alphabet : OrderedSet Char} (h : epsilonChar ∉ alphabet) :
    (void alphabet).WellFormed :=
  ⟨toAutomaton_void alphabet ▸ Automaton.void_valid h, TransitionMap.normal_empty⟩

/-! ## The edges after an operation -/

theorem ofList_edges_add (M : TransitionMap) (p : State) (a : Label) (targets : List State) :
    OrderedSet.ofList (M.add p a targets).edges =
      .ofList (targets.map fun q => ⟨p, a, q⟩) ∪ .ofList M.edges := by
  refine OrderedSet.ext_mem fun e => ?_
  rw [OrderedSet.mem_ofList, TransitionMap.mem_edges, TransitionMap.mem_successors_add,
    OrderedSet.mem_union, OrderedSet.mem_ofList, OrderedSet.mem_ofList, TransitionMap.mem_edges,
    List.mem_map]
  refine or_congr_left ⟨?_, ?_⟩
  · rintro ⟨rfl, rfl, htarget⟩
    exact ⟨e.target, htarget, rfl⟩
  · rintro ⟨q, hq, rfl⟩
    exact ⟨rfl, rfl, hq⟩

theorem ofList_edges_removeState (M : TransitionMap) (q : State) :
    OrderedSet.ofList (M.removeState q).edges =
      (OrderedSet.ofList M.edges).filter fun e => e.source ≠ q ∧ e.target ≠ q := by
  refine OrderedSet.ext_mem fun e => ?_
  rw [OrderedSet.mem_ofList, TransitionMap.mem_edges, TransitionMap.mem_successors_removeState,
    OrderedSet.mem_filter, OrderedSet.mem_ofList, TransitionMap.mem_edges, decide_eq_true_eq]

theorem ofList_edges_removeLabel (M : TransitionMap) (p : State) (a : Label) :
    OrderedSet.ofList (M.removeLabel p a).2.edges =
      (OrderedSet.ofList M.edges).filter fun e => ¬(e.source = p ∧ e.label = a) := by
  refine OrderedSet.ext_mem fun e => ?_
  rw [OrderedSet.mem_ofList, TransitionMap.mem_edges, TransitionMap.mem_successors_removeLabel,
    OrderedSet.mem_filter, OrderedSet.mem_ofList, TransitionMap.mem_edges, decide_eq_true_eq]

/-! ## Changes step by step -/

variable {α β : Type}

theorem run_bind (m : Change α) (f : α → Change β) (S : StoredAutomaton) :
    (m >>= f).run.run S = match m.run.run S with
      | (.ok v, T) => (f v).run.run T
      | (.error error, T) => (.error error, T) := by
  rw [ExceptT.run_bind, StateT.run_bind]
  show (match m.run.run S with | (outcome, T) => _) = _
  rcases m.run.run S with ⟨_ | _, T⟩
  all_goals rfl

theorem run_get (S : StoredAutomaton) :
    (get : Change StoredAutomaton).run.run S = (.ok S, S) := rfl

theorem run_modify (f : StoredAutomaton → StoredAutomaton) (S : StoredAutomaton) :
    (modify f : Change Unit).run.run S = (.ok (), f S) := rfl

/-- A check tells what it tells of the automaton, and changes nothing. -/
theorem run_checkState (q : State) (S : StoredAutomaton) :
    (checkState q).run.run S = (S.toAutomaton.checkState q, S) := by
  unfold checkState Automaton.checkState
  simp only [run_bind, run_get, states_toAutomaton]
  by_cases h : q ∈ S.states
  · simp only [h, reduceIte]
    rfl
  · simp only [h, reduceIte]
    rfl

theorem run_checkLabel (a : Label) (S : StoredAutomaton) :
    (checkLabel a).run.run S = (S.toAutomaton.checkLabel a, S) := by
  cases a with
  | epsilon => rfl
  | symbol c =>
    simp only [checkLabel, Automaton.checkLabel, run_bind, run_get, alphabet_toAutomaton]
    by_cases h : c ∈ S.alphabet
    · simp only [h, reduceIte]
      rfl
    · simp only [h, reduceIte]
      rfl

theorem run_mapM_checkState (S : StoredAutomaton) : ∀ targets : List State,
    (targets.mapM checkState : Change (List State)).run.run S =
      (targets.mapM S.toAutomaton.checkState, S)
  | [] => rfl
  | q :: targets => by
    rw [List.mapM_cons, List.mapM_cons, run_bind, run_checkState]
    cases S.toAutomaton.checkState q with
    | error error => rfl
    | ok p =>
      simp only [run_bind, run_mapM_checkState S targets]
      cases targets.mapM S.toAutomaton.checkState <;> rfl

theorem run_removeState_of_mem (h : q ∈ S.states) :
    (removeState q).run.run S = (.ok true,
      { S with
        states := S.states.erase q
        transitions := S.transitions.removeState q
        initial := S.initial.filter (· ≠ q)
        finals := S.finals.erase q }) := by
  unfold removeState
  simp only [run_bind, run_get, run_modify, h, not_true_eq_false, reduceIte]
  by_cases hi : S.initial = some q
  · simp only [hi, run_bind, run_modify, reduceIte]
    have hfilter : (some q).filter (fun p => decide (p ≠ q)) = none := by simp
    rw [hfilter]
    rfl
  · simp only [hi, reduceIte]
    have hfilter : S.initial.filter (fun p => decide (p ≠ q)) = S.initial := by
      cases hp : S.initial with
      | none => rfl
      | some p => simpa [hp] using hi
    rw [hfilter]
    rfl

theorem run_removeState_of_not_mem (h : q ∉ S.states) :
    (removeState q).run.run S = (.ok false, S) := by
  unfold removeState
  simp only [run_bind, run_get, h, not_false_eq_true, reduceIte]
  rfl

/-! ## One edit -/

/-- The edit does to what is stored what it does to the automaton, and tells the same; no empty
entry is left. -/
def Simulates (S : StoredAutomaton) (e : Edit) : Prop :=
  S.toAutomaton.attempt e = ((S.attempt e).1, (S.attempt e).2.toAutomaton) ∧
    (S.attempt e).2.transitions.Normal

section

variable (hS : S.WellFormed)
include hS

theorem simulates_setInitial (q : State) : S.Simulates (.setInitial q) := by
  unfold Simulates attempt Automaton.attempt
  simp only [change, setInitial, run_bind, run_checkState, Automaton.edit, Automaton.setInitial]
  cases S.toAutomaton.checkState q <;> exact ⟨rfl, hS.normal⟩

theorem simulates_addFinal (q : State) : S.Simulates (.addFinal q) := by
  unfold Simulates attempt Automaton.attempt
  simp only [change, addFinal, run_bind, run_checkState, Automaton.edit, Automaton.addFinal]
  cases S.toAutomaton.checkState q <;> exact ⟨rfl, hS.normal⟩

theorem simulates_extendAlphabet (symbols : List Char) :
    S.Simulates (.extendAlphabet symbols) := by
  unfold Simulates attempt Automaton.attempt
  simp only [change, extendAlphabet, Automaton.edit, Automaton.extendAlphabet]
  by_cases h : epsilonChar ∈ symbols
  · simp only [h, reduceIte]
    exact ⟨rfl, hS.normal⟩
  · simp only [h, reduceIte]
    exact ⟨rfl, hS.normal⟩

theorem simulates_addTransition (p : State) (a : Label) (targets : List State) :
    S.Simulates (.addTransition p a targets) := by
  unfold Simulates attempt Automaton.attempt
  simp only [change, addTransition, run_bind, run_checkLabel, Automaton.edit,
    Automaton.addTransition]
  cases S.toAutomaton.checkLabel a with
  | error error => exact ⟨rfl, hS.normal⟩
  | ok a =>
    simp only [run_checkState]
    cases S.toAutomaton.checkState p with
    | error error => exact ⟨rfl, hS.normal⟩
    | ok p =>
      simp only [run_mapM_checkState]
      cases targets.mapM S.toAutomaton.checkState with
      | error error => exact ⟨rfl, hS.normal⟩
      | ok targets =>
        cases targets with
        | nil =>
          have hedges : .ofList [] ∪ S.toAutomaton.edges = S.toAutomaton.edges :=
            OrderedSet.ext_mem fun e => by simp
          refine ⟨?_, hS.normal⟩
          show (Except.ok Report.nothing, ({ S.toAutomaton with
            edges := .ofList [] ∪ S.toAutomaton.edges } : Automaton)) = (_, S.toAutomaton)
          rw [hedges]
          rfl
        | cons q targets =>
          refine ⟨?_, TransitionMap.normal_add hS.normal (List.cons_ne_nil q targets)⟩
          have hedges := ofList_edges_add S.transitions p a (q :: targets)
          show _ = (Except.ok Report.nothing, ({ S.toAutomaton with
            edges := .ofList (S.transitions.add p a (q :: targets)).edges } : Automaton))
          rw [hedges]
          rfl

theorem simulates_addEdge (e : Edge) : S.Simulates (.addEdge e) :=
  simulates_addTransition hS e.source e.label [e.target]

theorem simulates_removeState (q : State) : S.Simulates (.removeState q) := by
  unfold Simulates attempt Automaton.attempt
  simp only [change, run_bind, Automaton.edit]
  by_cases h : q ∈ S.states
  · simp only [run_removeState_of_mem h]
    refine ⟨?_, TransitionMap.normal_removeState S.transitions q⟩
    have hedges := ofList_edges_removeState S.transitions q
    show (Except.ok (Report.changed (q ∈ S.states)), S.toAutomaton.removeState q) =
      (Except.ok (Report.changed true), ({
        states := S.states.erase q
        alphabet := S.alphabet
        edges := .ofList (S.transitions.removeState q).edges
        initial := S.initial.filter (· ≠ q)
        finals := S.finals.erase q } : Automaton))
    rw [hedges, decide_eq_true h]
    rfl
  · simp only [run_removeState_of_not_mem h]
    refine ⟨?_, hS.normal⟩
    show (Except.ok (Report.changed (q ∈ S.states)), S.toAutomaton.removeState q) =
      (Except.ok (Report.changed false), S.toAutomaton)
    rw [Automaton.removeState_of_not_mem hS.valid h, decide_eq_false h]

theorem simulates_removeTransition (p : State) (a : Label) :
    S.Simulates (.removeTransition p a) := by
  refine ⟨?_, TransitionMap.normal_removeLabel hS.normal⟩
  have hedges := ofList_edges_removeLabel S.transitions p a
  show (Except.ok (Report.removed _), S.toAutomaton.removeTransition p a) =
    (Except.ok (Report.removed (S.transitions.removeLabel p a).1),
      ({ S.toAutomaton with edges := .ofList (S.transitions.removeLabel p a).2.edges } : Automaton))
  rw [hedges, TransitionMap.fst_removeLabel_of_normal hS.normal, successors_toAutomaton]
  rfl

end

/-- **An edit does to what is stored what it does to the automaton.** -/
theorem simulates (hS : S.WellFormed) : ∀ e : Edit, S.Simulates e
  | .addState _ => ⟨rfl, hS.normal⟩
  | .removeState q => simulates_removeState hS q
  | .setInitial q => simulates_setInitial hS q
  | .clearInitial => ⟨rfl, hS.normal⟩
  | .addFinal q => simulates_addFinal hS q
  | .removeFinal _ => ⟨rfl, hS.normal⟩
  | .extendAlphabet symbols => simulates_extendAlphabet hS symbols
  | .addTransition p a targets => simulates_addTransition hS p a targets
  | .addEdge e => simulates_addEdge hS e
  | .removeTransition p a => simulates_removeTransition hS p a

/-- What an edit leaves stored is an automaton again. -/
theorem wellFormed_attempt (hS : S.WellFormed) (e : Edit) : (S.attempt e).2.WellFormed := by
  obtain ⟨heq, hnormal⟩ := simulates hS e
  have hvalid := Automaton.attempt_valid hS.valid e
  rw [heq] at hvalid
  exact ⟨hvalid, hnormal⟩

/-- An edit that is refused has changed nothing of what is stored. -/
theorem attempt_of_error (hS : S.WellFormed) {e : Edit} {error : AutomatonError}
    (h : (S.attempt e).1 = .error error) : (S.attempt e).2 = S := by
  obtain ⟨heq, hnormal⟩ := simulates hS e
  refine eq_of_toAutomaton_eq hnormal hS.normal ?_
  have hautomaton : (S.toAutomaton.attempt e).2 = (S.attempt e).2.toAutomaton :=
    congrArg Prod.snd heq
  rw [← hautomaton]
  exact Automaton.attempt_of_error ((congrArg Prod.fst heq).trans h)

/-! ## A run of edits -/

/-- **Edits do to what is stored what they do to the automaton**, one after the other. -/
theorem simulates_all : ∀ (edits : List Edit) {S : StoredAutomaton}, S.WellFormed →
    S.toAutomaton.attemptAll edits = ((S.attemptAll edits).1, (S.attemptAll edits).2.toAutomaton) ∧
      (S.attemptAll edits).2.WellFormed
  | [], _, hS => ⟨rfl, hS⟩
  | e :: edits, S, hS => by
    obtain ⟨ih, hwell⟩ := simulates_all edits (wellFormed_attempt hS e)
    refine ⟨?_, hwell⟩
    simp only [Automaton.attemptAll, (simulates hS e).1, ih]
    rfl

theorem map_toAutomaton_ofSymbols (symbols : List Char) :
    (ofSymbols symbols).map toAutomaton = Automaton.ofSymbols symbols := by
  unfold ofSymbols Automaton.ofSymbols
  by_cases h : epsilonChar ∈ symbols
  · have hmem : epsilonChar ∈ OrderedSet.ofList symbols := OrderedSet.mem_ofList.mpr h
    simp only [h, hmem, reduceIte]
    rfl
  · have hmem : epsilonChar ∉ OrderedSet.ofList symbols := mt OrderedSet.mem_ofList.mp h
    simp only [h, hmem, reduceIte]
    exact congrArg Except.ok (toAutomaton_void _)

theorem wellFormed_ofSymbols {symbols : List Char} (h : ofSymbols symbols = .ok S) :
    S.WellFormed := by
  unfold ofSymbols at h
  by_cases hε : epsilonChar ∈ OrderedSet.ofList symbols
  · simp only [hε, reduceIte] at h
    cases h
  · simp only [hε, reduceIte] at h
    exact Except.ok.inj h ▸ wellFormed_void hε

/-- What edits of an automaton without states lead to. -/
def Reached (S : StoredAutomaton) : Prop :=
  ∃ (symbols : List Char) (start : StoredAutomaton) (edits : List Edit),
    ofSymbols symbols = .ok start ∧ (start.attemptAll edits).2 = S

theorem Reached.wellFormed (h : S.Reached) : S.WellFormed := by
  obtain ⟨symbols, start, edits, hstart, rfl⟩ := h
  exact (simulates_all edits (wellFormed_ofSymbols hstart)).2

/-- **Edits of an automaton without states.** A start is refused exactly where the five sets
refuse it, and then every list of edits tells what it tells of the five sets, and what it leaves
stored is what they describe: the same components, visited in order, with the same successors.
It promises what automata promise and has no empty entry. A further edit that is refused leaves
it as it is, and any other run that leads to the same five components leads to the same stored
automaton. -/
theorem attemptAll_ofSymbols (symbols : List Char) :
    (ofSymbols symbols).map toAutomaton = Automaton.ofSymbols symbols ∧
    ∀ (start : StoredAutomaton) (edits : List Edit), ofSymbols symbols = .ok start →
      let T := (start.attemptAll edits).2
      start.toAutomaton.attemptAll edits = ((start.attemptAll edits).1, T.toAutomaton) ∧
      T.transitions.edges = T.toAutomaton.edges.toList ∧
      (∀ p a, T.transitions.successors p a = T.toAutomaton.successors p a) ∧
      T.toAutomaton.Valid ∧ T.transitions.Normal ∧
      (∀ e error, (T.attempt e).1 = .error error → (T.attempt e).2 = T) ∧
      ∀ T' : StoredAutomaton, T'.Reached → T'.toAutomaton = T.toAutomaton → T' = T := by
  refine ⟨map_toAutomaton_ofSymbols symbols, fun start edits hstart => ?_⟩
  obtain ⟨hrun, hT⟩ := simulates_all edits (wellFormed_ofSymbols hstart)
  exact ⟨hrun, (toList_edges_toAutomaton _).symm, fun p a => (successors_toAutomaton _ p a).symm,
    hT.valid, hT.normal, fun e error => attempt_of_error hT,
    fun T' hT' h => eq_of_toAutomaton_eq hT'.wellFormed.normal hT.normal h⟩

/-- A state that is added with a transition, and removed again, leaves no trace in what is
stored. -/
theorem attemptAll_addEdge_removeState :
    let start := void (.ofList ['a'])
    ofSymbols ['a'] = .ok start ∧
    (start.attemptAll [.addState ⟨"p"⟩]).2 = (start.attemptAll [.addState ⟨"p"⟩,
      .addState ⟨"q"⟩, .addEdge ⟨⟨"p"⟩, .symbol 'a', ⟨"q"⟩⟩, .removeState ⟨"q"⟩]).2 :=
  ⟨rfl, ((attemptAll_ofSymbols ['a']).2 _ _ rfl).2.2.2.2.2.2 _ ⟨['a'], _, _, rfl, rfl⟩
    (by decide +kernel)⟩

end RegularLanguages.StoredAutomaton
