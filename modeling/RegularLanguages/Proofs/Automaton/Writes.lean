import RegularLanguages.Automaton.Writes
import RegularLanguages.Proofs.Automaton.Stored

/-!
# What unchecked writes leave stored

Writes do to the five sets what they do to what is stored (`written`), as long as every
transition is on the empty word or on a symbol of the alphabet. So a construction is right if its
writes are those of the automaton it is to make (`Makes`): each of its transitions, final states
and its initial state is written, nothing else is, and every state is written somehow. If that
automaton is valid, no assertion fails and no empty entry is stored.

Results:
* `mem_states_written`, `mem_edges_written`, `mem_finals_written`, `initial_written`: what writes
  do to the five sets.
* `writeAll_of_labels`: what they do to what is stored.
* **`yields_writeAll`**, `yields_make`: the writes of a valid automaton store it.
* `yields_bind`: one construction after the other.
* `checkTable_of_total`: complete deterministic automata are made into tables.
-/

namespace RegularLanguages

/-- The states that a write mentions, which become states if they were none. -/
def Write.mentioned : Write → List State
  | .state q => [q]
  | .link e => [e.target, e.source]
  | .final q => [q]
  | .initial q => [q]

namespace Automaton

variable {A B : Automaton} {ws : List Write} {q : State} {e : Edge} {i : Option State}

/-! ## Writes to the five sets -/

/-- The automaton after a write. -/
def write (A : Automaton) : Write → Automaton
  | .state q => { A with states := A.states.insert q }
  | .link e =>
    { A with
      states := (A.states.insert e.source).insert e.target
      edges := .ofList [e] ∪ A.edges }
  | .final q => { A with states := A.states.insert q, finals := A.finals.insert q }
  | .initial q => { A with states := A.states.insert q, initial := some q }

/-- The automaton after several writes. -/
def written (A : Automaton) (ws : List Write) : Automaton := ws.foldl write A

theorem written_cons (A : Automaton) (w : Write) (ws : List Write) :
    A.written (w :: ws) = (A.write w).written ws := rfl

theorem alphabet_written (A : Automaton) (ws : List Write) :
    (A.written ws).alphabet = A.alphabet := by
  induction ws generalizing A with
  | nil => rfl
  | cons w ws ih =>
    rw [written_cons, ih]
    cases w <;> rfl

theorem mem_states_written :
    q ∈ (A.written ws).states ↔ (∃ w ∈ ws, q ∈ w.mentioned) ∨ q ∈ A.states := by
  induction ws generalizing A with
  | nil => simp [written]
  | cons w ws ih =>
    rw [written_cons, ih]
    cases w <;> simp [write, Write.mentioned, or_assoc, or_left_comm]

theorem mem_edges_written : e ∈ (A.written ws).edges ↔ .link e ∈ ws ∨ e ∈ A.edges := by
  induction ws generalizing A with
  | nil => simp [written]
  | cons w ws ih =>
    rw [written_cons, ih]
    cases w <;> simp [write, or_assoc, or_left_comm]

theorem mem_finals_written : q ∈ (A.written ws).finals ↔ .final q ∈ ws ∨ q ∈ A.finals := by
  induction ws generalizing A with
  | nil => simp [written]
  | cons w ws ih =>
    rw [written_cons, ih]
    cases w <;> simp [write, or_assoc, or_left_comm]

/-- The initial state is the one that all writes of an initial state agree on. -/
theorem initial_written (hwritten : ∀ q, .initial q ∈ ws → i = some q)
    (h : A.initial = i ∨ ∃ q, .initial q ∈ ws) : (A.written ws).initial = i := by
  induction ws generalizing A with
  | nil => exact h.resolve_right (by simp)
  | cons w ws ih =>
    rw [written_cons]
    refine ih (fun q hq => hwritten q (List.mem_cons_of_mem w hq)) ?_
    cases w with
    | initial p => exact Or.inl (hwritten p List.mem_cons_self).symm
    | _ => simpa [write] using h

/-- The writes turn one automaton into the other. -/
structure Makes (ws : List Write) (A B : Automaton) : Prop where
  alphabet_eq : A.alphabet = B.alphabet
  mem_states : ∀ q ∈ A.states, q ∈ B.states
  state_mem : ∀ q, .state q ∈ ws → q ∈ B.states
  mentioned : ∀ q ∈ B.states, (∃ w ∈ ws, q ∈ w.mentioned) ∨ q ∈ A.states
  mem_edges : ∀ e, e ∈ B.edges ↔ .link e ∈ ws ∨ e ∈ A.edges
  mem_finals : ∀ q, q ∈ B.finals ↔ .final q ∈ ws ∨ q ∈ A.finals
  initial_eq : ∀ q, .initial q ∈ ws → B.initial = some q
  initial_written : A.initial = B.initial ∨ ∃ q, .initial q ∈ ws

/-- All states that are mentioned are states of what is made, provided that it is valid. -/
theorem Makes.mentioned_mem (h : Makes ws A B) (hB : B.Valid) {w : Write} (hw : w ∈ ws)
    (hq : q ∈ w.mentioned) : q ∈ B.states := by
  cases w with
  | state p => exact List.mem_singleton.mp hq ▸ h.state_mem p hw
  | final p => exact List.mem_singleton.mp hq ▸ hB.final_mem p ((h.mem_finals p).mpr (Or.inl hw))
  | initial p => exact List.mem_singleton.mp hq ▸ hB.initial_mem p (h.initial_eq p hw)
  | link e =>
    have he := (h.mem_edges e).mpr (Or.inl hw)
    rcases List.mem_cons.mp hq with rfl | hq
    · exact hB.target_mem e he
    · exact List.mem_singleton.mp hq ▸ hB.source_mem e he

theorem Makes.written_eq (h : Makes ws A B) (hB : B.Valid) : A.written ws = B := by
  refine Automaton.ext_mem (fun q => ?_) ((alphabet_written A ws).trans h.alphabet_eq) (fun e => ?_)
    (Automaton.initial_written h.initial_eq h.initial_written) fun q => ?_
  · rw [mem_states_written]
    refine ⟨?_, h.mentioned q⟩
    rintro (⟨w, hw, hq⟩ | hq)
    · exact h.mentioned_mem hB hw hq
    · exact h.mem_states q hq
  · rw [mem_edges_written, h.mem_edges]
  · rw [mem_finals_written, h.mem_finals]

/-- Writes make an automaton from none if they are its transitions, its final states and its
initial state, and mention its states. -/
theorem makes_of_void (hstate : ∀ q, .state q ∈ ws → q ∈ B.states)
    (hmentioned : ∀ q ∈ B.states, ∃ w ∈ ws, q ∈ w.mentioned)
    (hedges : ∀ e, e ∈ B.edges ↔ .link e ∈ ws) (hfinals : ∀ q, q ∈ B.finals ↔ .final q ∈ ws)
    (hinitial : ∀ q, B.initial = some q ↔ .initial q ∈ ws) : Makes ws (void B.alphabet) B where
  alphabet_eq := rfl
  mem_states q hq := absurd hq (OrderedSet.not_mem_empty q)
  state_mem := hstate
  mentioned q hq := Or.inl (hmentioned q hq)
  mem_edges e := (hedges e).trans (or_iff_left (OrderedSet.not_mem_empty e)).symm
  mem_finals q := (hfinals q).trans (or_iff_left (OrderedSet.not_mem_empty q)).symm
  initial_eq q hq := (hinitial q).mpr hq
  initial_written := by
    cases hi : B.initial with
    | none => exact Or.inl rfl
    | some q => exact Or.inr ⟨q, (hinitial q).mp hi⟩

/-- Where every state is written as a state, the writes need only be the parts of what is made. -/
theorem makes_of_iff (hstates : ∀ q, .state q ∈ ws ↔ q ∈ B.states)
    (hedges : ∀ e, .link e ∈ ws ↔ e ∈ B.edges) (hfinals : ∀ q, .final q ∈ ws ↔ q ∈ B.finals)
    (hinitial : ∀ q, .initial q ∈ ws ↔ B.initial = some q) : Makes ws (void B.alphabet) B :=
  makes_of_void (fun q => (hstates q).mp)
    (fun q hq => ⟨.state q, (hstates q).mpr hq, List.mem_singleton_self q⟩)
    (fun e => (hedges e).symm) (fun q => (hfinals q).symm) fun q => (hinitial q).symm

end Automaton

namespace StoredAutomaton

variable {S T : StoredAutomaton} {A B : Automaton} {ws : List Write} {e : Edge}
  {alphabet : OrderedSet Char} {m : Except Violation StoredAutomaton}

/-! ## Writes to what is stored -/

/-- A write does to what is stored what it does to the automaton, unless it is a transition on a
label that is not permitted. -/
theorem write_of_label (hS : S.transitions.Normal) {w : Write}
    (h : ∀ e, w = .link e → ∀ c, e.label = .symbol c → c ∈ S.alphabet) :
    ∃ T, S.write w = .ok T ∧ T.toAutomaton = S.toAutomaton.write w ∧ T.transitions.Normal := by
  cases w with
  | link e =>
    have hlabel : e.label.symbol?.all (fun c => decide (c ∈ S.alphabet)) = true := by
      cases he : e.label with
      | epsilon => rfl
      | symbol c => exact decide_eq_true (h e rfl c he)
    refine ⟨_, if_pos hlabel, ?_, TransitionMap.normal_add hS (List.cons_ne_nil _ _)⟩
    have hedges := ofList_edges_add S.transitions e.source e.label [e.target]
    show ({ S.toAutomaton with
      states := (S.states.insert e.source).insert e.target
      edges := .ofList (S.transitions.add e.source e.label [e.target]).edges } : Automaton) = _
    rw [hedges]
    rfl
  | _ => exact ⟨_, rfl, rfl, hS⟩

theorem writeAll_of_labels (hS : S.transitions.Normal)
    (h : ∀ e, .link e ∈ ws → ∀ c, e.label = .symbol c → c ∈ S.alphabet) :
    ∃ T, S.writeAll ws = .ok T ∧ T.toAutomaton = S.toAutomaton.written ws ∧
      T.transitions.Normal := by
  induction ws generalizing S with
  | nil => exact ⟨S, rfl, rfl, hS⟩
  | cons w ws ih =>
    obtain ⟨S', hw, hwrite, hS'⟩ := write_of_label hS (w := w) fun e he =>
      h e (he ▸ List.mem_cons_self)
    have halphabet : S'.alphabet = S.alphabet := by
      rw [← alphabet_toAutomaton, hwrite]
      exact Automaton.alphabet_written S.toAutomaton [w]
    obtain ⟨T, hT, hwritten, hnormal⟩ := ih hS' fun e he => by
      rw [halphabet]
      exact h e (List.mem_cons_of_mem w he)
    refine ⟨T, ?_, ?_, hnormal⟩
    · rw [writeAll, List.foldlM_cons, hw]
      exact hT
    · rw [hwritten, hwrite, Automaton.written_cons]

/-! ## What a construction yields -/

/-- No assertion fails, and what is stored is the given automaton, without empty entries. -/
def Yields (m : Except Violation StoredAutomaton) (A : Automaton) : Prop :=
  ∃ S, m = .ok S ∧ S.toAutomaton = A ∧ S.WellFormed

theorem yields_pure (hS : S.WellFormed) : Yields (pure S) S.toAutomaton := ⟨S, rfl, rfl, hS⟩

/-- What is done with a yielded automaton may rely on what it is. -/
theorem yields_bind {f : StoredAutomaton → Except Violation StoredAutomaton} (hm : Yields m A)
    (hf : ∀ S : StoredAutomaton, S.WellFormed → S.toAutomaton = A → Yields (f S) B) :
    Yields (m >>= f) B := by
  obtain ⟨S, rfl, hA, hS⟩ := hm
  exact hf S hS hA

/-- **The writes of a valid automaton store it**, and no assertion fails. -/
theorem yields_writeAll (hS : S.WellFormed) (hB : B.Valid)
    (h : Automaton.Makes ws S.toAutomaton B) : Yields (S.writeAll ws) B := by
  have hlabels (e : Edge) (he : .link e ∈ ws) (c : Char) (hc : e.label = .symbol c) :
      c ∈ S.alphabet := by
    rw [← alphabet_toAutomaton, h.alphabet_eq]
    exact hB.label_mem e ((h.mem_edges e).mpr (Or.inl he)) c hc
  obtain ⟨T, hT, hwritten, hnormal⟩ := writeAll_of_labels hS.normal hlabels
  rw [h.written_eq hB] at hwritten
  exact ⟨T, hT, hwritten, hwritten ▸ hB, hnormal⟩

theorem yields_blank (h : epsilonChar ∉ alphabet) :
    Yields (blank alphabet) (Automaton.void alphabet) :=
  ⟨void alphabet, if_neg h, toAutomaton_void alphabet, wellFormed_void h⟩

theorem yields_make (hB : B.Valid) (h : Automaton.Makes ws (Automaton.void B.alphabet) B) :
    Yields (make B.alphabet ws) B :=
  yields_bind (yields_blank hB.epsilon_not_mem) fun _ hS hvoid =>
    yields_writeAll hS hB (hvoid ▸ h)

/-! ## Deterministic and complete automata -/

theorem isDeterministic_toAutomaton (hS : S.transitions.Normal) :
    S.transitions.isDeterministic = S.toAutomaton.isDeterministic := by
  rw [Bool.eq_iff_iff, TransitionMap.isDeterministic_iff hS, Automaton.isDeterministic_iff]
  constructor
  · rintro ⟨hε, hunique⟩
    refine ⟨fun p q => mt mem_edges_toAutomaton.mp (hε p q), fun {p a q q'} hq hq' => ?_⟩
    exact hunique p a q (mem_edges_toAutomaton.mp hq) q' (mem_edges_toAutomaton.mp hq')
  · rintro ⟨hε, hunique⟩
    refine ⟨fun p q => mt (mem_edges_toAutomaton (e := ⟨p, .epsilon, q⟩)).mpr (hε p q),
      fun p a q hq q' hq' => ?_⟩
    exact hunique (mem_edges_toAutomaton (e := ⟨p, a, q⟩).mpr hq)
      (mem_edges_toAutomaton (e := ⟨p, a, q'⟩).mpr hq')

theorem isComplete_toAutomaton (S : StoredAutomaton) :
    S.isComplete = S.toAutomaton.isComplete := by
  unfold isComplete Automaton.isComplete
  have hmove (q : State) (c : Char) :
      (!(S.transitions.successors q (.symbol c)).isEmpty) = S.toAutomaton.hasMove q c := by
    rw [Bool.eq_iff_iff, Bool.not_eq_true', TransitionMap.targets_isEmpty_eq_false,
      Automaton.hasMove_iff]
    exact exists_congr fun p => (mem_edges_toAutomaton (e := ⟨q, .symbol c, p⟩)).symm
  simp only [hmove]
  rfl

/-- A complete deterministic automaton is made into a table. -/
theorem checkTable_of_total (hS : S.WellFormed) (h : S.toAutomaton.Total) :
    S.checkTable = .ok () := by
  unfold checkTable
  rw [isDeterministic_toAutomaton hS.normal, isComplete_toAutomaton,
    Automaton.isDeterministic_iff.mpr h.deterministic, Automaton.isComplete_iff.mpr h.complete]
  rfl

end StoredAutomaton

end RegularLanguages
