import RegularLanguages.Proofs.Automaton.Boolean
import RegularLanguages.Proofs.Automaton.Canonical
import RegularLanguages.Proofs.Automaton.Making
import RegularLanguages.Proofs.Automaton.Subdivision

/-!
# Constructions store valid automata

Constructions write without checks, so it is up to each of them that its transitions are on
symbols of the alphabet. They are, as the automaton that a construction stands for is valid and
its writes make it. So every construction of valid automata stores that automaton (`Yields`), and
so does every composition of constructions.

Results:
* `yields_rename`, `yields_determinize`, `yields_minimize`, `yields_union`, `yields_intersection`
  and so on: one construction.
* `yields_swapFinals`: swapping one state after the other swaps all final states.
* `Unary.alphabet_apply`, `Binary.alphabet_apply`: the alphabets that are promised.
* **`Construction.exists_run_eq_ok`**: compositions.
-/

namespace RegularLanguages

namespace StoredAutomaton

variable {S T : StoredAutomaton} {q : State} {alphabet : OrderedSet Char}

theorem mem_transitions_edges {e : Edge} :
    e ∈ S.transitions.edges ↔ e ∈ S.toAutomaton.edges := by
  rw [TransitionMap.mem_edges, mem_edges_toAutomaton]

/-! ## Renamed and restricted automata -/

theorem yields_rename (hS : S.WellFormed) (f : State → State) :
    Yields (S.rename f) (S.toAutomaton.rename f) := by
  refine yields_make (Automaton.rename_valid hS.valid)
    (Automaton.makes_ofParts (B := S.toAutomaton.rename f) ?_ ?_ ?_ ?_)
  · intro q hq
    exact Automaton.mem_states_rename.mpr (List.mem_map.mp hq)
  · intro q hq
    exact Or.inl (List.mem_map.mpr (Automaton.mem_states_rename.mp hq))
  · intro e
    simp only [Automaton.mem_edges_rename, List.mem_map, mem_transitions_edges]
  · intro q
    rw [Automaton.mem_finals_rename, List.mem_map]
    rfl

theorem yields_within (hS : S.WellFormed) {kept : OrderedSet State}
    (hkept : ∀ q ∈ kept, q ∈ S.states) : Yields (S.within kept) (S.toAutomaton.within kept) := by
  refine yields_make (Automaton.within_valid hS.valid)
    (Automaton.makes_ofParts (B := S.toAutomaton.within kept) ?_ ?_ ?_ ?_)
  · intro q hq
    exact Automaton.mem_states_within.mpr ⟨hkept q hq, hq⟩
  · intro q hq
    exact Or.inl (Automaton.mem_states_within.mp hq).2
  · intro e
    simp only [Automaton.mem_edges_within, List.mem_filter, mem_transitions_edges,
      Bool.and_eq_true, decide_eq_true_eq]
  · intro q
    rw [Automaton.mem_finals_within, List.mem_filter, decide_eq_true_eq]
    rfl

theorem yields_withoutUnreachable (hS : S.WellFormed) :
    Yields S.withoutUnreachable S.toAutomaton.withoutUnreachable :=
  yields_within hS fun _ hq => (Automaton.mem_accessible.mp hq).mem_states hS.valid

theorem yields_prune (hS : S.WellFormed) : Yields S.prune S.toAutomaton.prune :=
  yields_within hS fun _ hq => (Automaton.mem_useful.mp hq).1.mem_states hS.valid

theorem yields_rejecting (h : epsilonChar ∉ alphabet) (q : State) :
    Yields (rejecting alphabet q) (Automaton.rejecting alphabet q) :=
  yields_make (Automaton.rejecting_total h).valid (Automaton.makes_rejecting alphabet q)

/-! ## Transitions on the empty word -/

theorem yields_removeEpsilon (hS : S.WellFormed) :
    Yields S.removeEpsilon S.toAutomaton.removeEpsilon :=
  yields_make (Automaton.removeEpsilon_valid hS.valid) (Automaton.makes_removing S.toAutomaton)

theorem yields_addEpsilon (hS : S.WellFormed) : Yields S.addEpsilon S.toAutomaton.addEpsilon := by
  unfold addEpsilon
  rw [← toList_edges_toAutomaton]
  refine yields_make (Automaton.addEpsilon_valid hS.valid)
    (Automaton.makes_ofParts (B := S.toAutomaton.addEpsilon) ?_ ?_ ?_ ?_)
  · exact fun q hq => Automaton.mem_states_addEpsilon.mpr (Or.inr hq)
  · exact fun q hq => (Automaton.mem_states_addEpsilon.mp hq).symm
  · exact fun e => Automaton.mem_edges_addEpsilon
  · exact fun q => Iff.rfl

/-! ## Determinization and completion -/

theorem yields_determinize (hS : S.WellFormed) :
    Yields S.determinize S.toAutomaton.determinize := by
  refine yields_bind (yields_blank hS.valid.epsilon_not_mem) fun out hout hvoid => ?_
  cases hi : S.initial with
  | none =>
    rw [Automaton.determinize_of_initial_eq_none hi]
    exact hvoid ▸ yields_pure hout
  | some i =>
    obtain ⟨name, h⟩ := Automaton.determinize_depicts hS.valid hi
    have hvalid := Automaton.determinize_valid hS.valid
    simp only [Automaton.determinize, initial_toAutomaton, hi] at h hvalid ⊢
    exact yields_writeAll hout hvalid (hvoid ▸ Automaton.makes_unfolding h)

theorem yields_withSink (hS : S.WellFormed) (hdet : S.toAutomaton.Deterministic) :
    Yields S.withSink S.toAutomaton.withSink := by
  unfold withSink
  by_cases hgaps : S.toAutomaton.gaps = []
  · rw [Automaton.withSink_of_gaps_eq_nil hgaps, if_pos (List.isEmpty_iff.mpr hgaps)]
    exact yields_pure hS
  · rw [if_neg (mt List.isEmpty_iff.mp hgaps)]
    exact yields_writeAll hS (Automaton.withSink_total hS.valid hdet).valid
      (Automaton.makes_completing (Automaton.addsSink_withSink hgaps))

theorem yields_complete (hS : S.WellFormed) : Yields S.complete S.toAutomaton.complete := by
  have hrun : S.complete =
      (if S.transitions.isDeterministic then pure S else S.determinize) >>= withSink := by
    unfold complete
    split <;> rfl
  have hdeterministic : Yields (if S.transitions.isDeterministic then pure S else S.determinize)
      (if S.toAutomaton.isDeterministic then S.toAutomaton else S.toAutomaton.determinize) := by
    rw [isDeterministic_toAutomaton hS.normal]
    split
    · exact yields_pure hS
    · exact yields_determinize hS
  rw [hrun]
  refine yields_bind hdeterministic fun D hD heq => ?_
  rw [Automaton.complete, ← heq]
  refine yields_withSink hD ?_
  rw [heq]
  split
  · exact Automaton.isDeterministic_iff.mp ‹_›
  · exact Automaton.determinize_deterministic hS.valid

/-! ## Minimal and canonical automata -/

/-- A complete deterministic automaton is made into a table, and merged. -/
theorem yields_merged (hS : S.WellFormed) (h : S.toAutomaton.Total) :
    Yields S.merged S.toAutomaton.merged := by
  unfold merged
  rw [checkTable_of_total hS h]
  exact yields_make (Automaton.merged_total h).valid (Automaton.makes_merging S.toAutomaton)

theorem yields_minimize (hS : S.WellFormed) : Yields S.minimize S.toAutomaton.minimize := by
  have hrun : S.minimize =
      (if S.transitions.isDeterministic then S.withoutUnreachable else S.determinize) >>= fun D =>
        if D.initial.isNone then rejecting S.alphabet ⟨"q0"⟩ else D.complete >>= merged := by
    unfold minimize
    split <;> rfl
  have hreduced : Yields (if S.transitions.isDeterministic then S.withoutUnreachable
      else S.determinize) S.toAutomaton.reduced := by
    rw [isDeterministic_toAutomaton hS.normal, Automaton.reduced]
    split
    · exact yields_withoutUnreachable hS
    · exact yields_determinize hS
  rw [hrun]
  refine yields_bind hreduced fun D hD heq => ?_
  show Yields _ (if S.toAutomaton.reduced.initial.isNone then
    Automaton.rejecting S.alphabet ⟨"q0"⟩ else S.toAutomaton.reduced.complete.merged)
  rw [← heq, initial_toAutomaton]
  split
  · exact yields_rejecting hS.valid.epsilon_not_mem _
  · refine yields_bind (yields_complete hD) fun C hC hcomplete => ?_
    rw [← hcomplete]
    exact yields_merged hC (hcomplete ▸ Automaton.complete_total hD.valid)

theorem yields_canonicalize (hS : S.WellFormed) :
    Yields S.canonicalize S.toAutomaton.canonicalize := by
  refine yields_bind (yields_determinize hS) fun D hD hdeterminize => ?_
  refine yields_bind (yields_complete hD) fun C hC hcomplete => ?_
  refine yields_bind (yields_prune hC) fun P hP hprune => ?_
  refine yields_bind (yields_minimize hP) fun M hM hminimize => ?_
  have hcanonical : S.toAutomaton.canonicalize = M.toAutomaton.rename M.toAutomaton.number := by
    rw [hminimize, hprune, hcomplete, hdeterminize]
    rfl
  rw [hcanonical]
  exact yields_rename hM M.toAutomaton.number

/-! ## Union, concatenation and repetition -/

/-- The parts of a union or a concatenation are put side by side first. -/
theorem yields_beside {A B : Automaton} (hA : A.Valid) (hB : B.Valid) :
    Yields (make (A.alphabet ∪ B.alphabet) (Write.absorbing A ++ Write.absorbing B))
      (A.beside B) :=
  yields_make (Automaton.beside_valid hA hB) (Automaton.makes_absorbing A B)

theorem yields_union (hS : S.WellFormed) (hT : T.WellFormed) :
    Yields (S.union T) (S.toAutomaton.union T.toAutomaton) := by
  refine yields_bind (yields_rename hS _) fun L hL hleft => ?_
  refine yields_bind (yields_rename hT _) fun R hR hright => ?_
  rw [hleft, hright]
  refine yields_bind (yields_beside (Automaton.asLeft_valid hS.valid)
    (Automaton.asRight_valid hT.valid)) fun out hout hbeside => ?_
  refine yields_writeAll hout (Automaton.union_valid hS.valid hT.valid) ?_
  rw [← states_toAutomaton, hbeside]
  exact Automaton.makes_uniting S.toAutomaton T.toAutomaton

theorem yields_concatenate (hS : S.WellFormed) (hT : T.WellFormed) :
    Yields (S.concatenate T) (S.toAutomaton.concatenate T.toAutomaton) := by
  refine yields_bind (yields_rename hS _) fun L hL hleft => ?_
  refine yields_bind (yields_rename hT _) fun R hR hright => ?_
  rw [hleft, hright]
  refine yields_bind (yields_beside (Automaton.asLeft_valid hS.valid)
    (Automaton.asRight_valid hT.valid)) fun out hout hbeside => ?_
  refine yields_writeAll hout (Automaton.concatenate_valid hS.valid hT.valid) ?_
  rw [hbeside]
  exact Automaton.makes_chaining S.toAutomaton T.toAutomaton

theorem yields_star (hS : S.WellFormed) : Yields S.star S.toAutomaton.star :=
  yields_make (Automaton.star_valid hS.valid) (Automaton.makes_repeating S.toAutomaton)

/-! ## Complement, intersection and difference -/

theorem extended_wellFormed (hS : S.WellFormed) (symbols : OrderedSet Char) :
    (S.extended symbols).WellFormed :=
  ⟨Automaton.extended_valid hS.valid symbols, hS.normal⟩

/-- Swapping a state exchanges whether it is final. -/
theorem exists_swapFinal_eq (hq : q ∈ S.states) : ∃ finals : OrderedSet State,
    S.swapFinal q = { S with finals := finals } ∧
      ∀ p, p ∈ finals ↔ (p ∈ S.finals ↔ p ≠ q) := by
  have hstates : S.states.insert q = S.states := OrderedSet.ext_mem fun p => by
    rw [OrderedSet.mem_insert]
    exact or_iff_right_of_imp fun he => he ▸ hq
  by_cases hfinal : q ∈ S.finals
  · refine ⟨S.finals.erase q, if_pos hfinal, fun p => ?_⟩
    rw [OrderedSet.mem_erase]
    by_cases hp : p = q
    · simp [hp, hfinal]
    · simp [hp]
  · refine ⟨S.finals.insert q, ?_, fun p => ?_⟩
    · rw [swapFinal, if_neg hfinal, hstates]
    · rw [OrderedSet.mem_insert]
      by_cases hp : p = q
      · simp [hp, hfinal]
      · simp [hp]

/-- Swapping each of some states once exchanges which of them are final. -/
theorem exists_foldl_swapFinal_eq : ∀ {qs : List State} {S : StoredAutomaton}, qs.Nodup →
    (∀ q ∈ qs, q ∈ S.states) → ∃ finals : OrderedSet State,
      qs.foldl swapFinal S = { S with finals := finals } ∧
        ∀ p, p ∈ finals ↔ (p ∈ S.finals ↔ p ∉ qs)
  | [], S, _, _ => ⟨S.finals, rfl, fun p => by simp⟩
  | q :: qs, S, hn, hqs => by
    obtain ⟨hq, hn⟩ := List.nodup_cons.mp hn
    obtain ⟨swapped, hswap, hswapped⟩ := exists_swapFinal_eq (hqs q List.mem_cons_self)
    obtain ⟨finals, hfold, hfinals⟩ := exists_foldl_swapFinal_eq
      (S := { S with finals := swapped }) hn fun p hp => hqs p (List.mem_cons_of_mem q hp)
    refine ⟨finals, by rw [List.foldl_cons, hswap, hfold], fun p => ?_⟩
    rw [hfinals, hswapped, List.mem_cons]
    -- a state is swapped here or later, but not twice
    by_cases hp : p = q
    · simp [hp, hq]
    · simp [hp]

/-- Swapping all states of an automaton stores the automaton with swapped final states. -/
theorem yields_swapFinals (hS : S.WellFormed) :
    Yields (pure (S.states.toList.foldl swapFinal S)) S.toAutomaton.swapFinals := by
  obtain ⟨finals, hfold, hfinals⟩ := exists_foldl_swapFinal_eq (OrderedSet.nodup_toList S.states)
    fun q hq => hq
  have hswap : finals = S.toAutomaton.swapFinals.finals := OrderedSet.ext_mem fun q => by
    show _ ↔ q ∈ S.states.filter fun q => !S.toAutomaton.isFinal q
    rw [hfinals, OrderedSet.mem_filter, OrderedSet.mem_toList]
    have hswapped : (!S.toAutomaton.isFinal q) = true ↔ q ∉ S.finals := by
      rw [Bool.not_eq_true', Automaton.isFinal, decide_eq_false_iff_not]
      rfl
    rw [hswapped]
    by_cases hq : q ∈ S.states
    · simp [hq]
    · simpa [hq] using mt (hS.valid.final_mem q) hq
  rw [hfold, hswap]
  exact ⟨_, rfl, rfl, Automaton.swapFinals_valid hS.valid, hS.normal⟩

theorem yields_complementOver (hS : S.WellFormed) (symbols : OrderedSet Char) :
    Yields (S.complementOver symbols) (S.toAutomaton.complementOver symbols) := by
  have hE := extended_wellFormed hS symbols
  have hrun : S.complementOver symbols =
      (if (S.extended symbols).initial.isSome then (S.extended symbols).complete
        else rejecting (S.extended symbols).alphabet ⟨"q0"⟩) >>=
        fun D => pure (D.states.toList.foldl swapFinal D) := by
    simp only [complementOver]
    split <;> rfl
  have hbase : Yields (if (S.extended symbols).initial.isSome then (S.extended symbols).complete
      else rejecting (S.extended symbols).alphabet ⟨"q0"⟩)
      (S.toAutomaton.complementBase symbols) := by
    show Yields _ (if (S.extended symbols).initial.isSome then
      (S.extended symbols).toAutomaton.complete
      else Automaton.rejecting (S.extended symbols).alphabet ⟨"q0"⟩)
    split
    · exact yields_complete hE
    · exact yields_rejecting hE.valid.epsilon_not_mem _
  rw [hrun]
  refine yields_bind hbase fun D hD heq => ?_
  show Yields _ (S.toAutomaton.complementBase symbols).swapFinals
  rw [← heq]
  exact yields_swapFinals hD

theorem yields_complement (hS : S.WellFormed) : Yields S.complement S.toAutomaton.complement :=
  yields_complementOver hS S.alphabet

theorem yields_intersection (hS : S.WellFormed) (hT : T.WellFormed) :
    Yields (S.intersection T) (S.toAutomaton.intersection T.toAutomaton) := by
  have hvalid := Automaton.intersection_valid hS.valid hT.valid
  have hε : epsilonChar ∉ S.alphabet ∩ T.alphabet := fun h =>
    hS.valid.epsilon_not_mem (OrderedSet.mem_inter.mp h).1
  refine yields_bind (yields_blank hε) fun out hout hvoid => ?_
  refine yields_bind (yields_removeEpsilon hS) fun L _ hleft => ?_
  refine yields_bind (yields_removeEpsilon hT) fun R _ hright => ?_
  rw [hleft, hright]
  cases hp : S.initial with
  | none =>
    have hp' : S.toAutomaton.removeEpsilon.initial = none := hp
    rw [Automaton.intersection_of_initial_eq_none (Or.inl hp)]
    simp only [hp']
    exact hvoid ▸ yields_pure hout
  | some p =>
    have hp' : S.toAutomaton.removeEpsilon.initial = some p := hp
    cases hq : T.initial with
    | none =>
      have hq' : T.toAutomaton.removeEpsilon.initial = none := hq
      rw [Automaton.intersection_of_initial_eq_none (Or.inr hq)]
      simp only [hp', hq']
      exact hvoid ▸ yields_pure hout
    | some q =>
      have hq' : T.toAutomaton.removeEpsilon.initial = some q := hq
      obtain ⟨name, h⟩ := Automaton.intersection_depicts hS.valid hT.valid hp hq
      simp only [Automaton.intersection, hp', hq'] at h hvalid ⊢
      exact yields_writeAll hout hvalid (hvoid ▸ Automaton.makes_unfolding h)

theorem yields_difference (hS : S.WellFormed) (hT : T.WellFormed) :
    Yields (S.difference T) (S.toAutomaton.difference T.toAutomaton) := by
  refine yields_bind (yields_complementOver hT _) fun C hC hcomplement => ?_
  show Yields _ (S.toAutomaton.intersection
    (T.toAutomaton.complementOver (S.alphabet ∪ T.alphabet)))
  rw [← hcomplement]
  exact yields_intersection hS hC

end StoredAutomaton

open StoredAutomaton

/-! ## Compositions -/

namespace Unary

theorem yields_run {S : StoredAutomaton} (hS : S.WellFormed) (f : Unary) :
    Yields (f.run S) (f.apply S.toAutomaton) := by
  cases f with
  | determinize => exact yields_determinize hS
  | complete => exact yields_complete hS
  | prune => exact yields_prune hS
  | withoutUnreachable => exact yields_withoutUnreachable hS
  | minimize => exact yields_minimize hS
  | canonicalize => exact yields_canonicalize hS
  | removeEpsilon => exact yields_removeEpsilon hS
  | addEpsilon => exact yields_addEpsilon hS
  | star => exact yields_star hS
  | complement => exact yields_complement hS
  | complementOver symbols => exact yields_complementOver hS symbols

theorem alphabet_apply (A : Automaton) (f : Unary) :
    (f.apply A).alphabet = f.alphabet A.alphabet := by
  cases f with
  | prune => rfl
  | withoutUnreachable => rfl
  | _ => simp [apply, alphabet]

end Unary

namespace Binary

theorem yields_run {S T : StoredAutomaton} (hS : S.WellFormed) (hT : T.WellFormed) (f : Binary) :
    Yields (f.run S T) (f.apply S.toAutomaton T.toAutomaton) := by
  cases f with
  | union => exact yields_union hS hT
  | concatenate => exact yields_concatenate hS hT
  | intersection => exact yields_intersection hS hT
  | difference => exact yields_difference hS hT

theorem alphabet_apply {A : Automaton} (hA : A.Valid) (B : Automaton) (f : Binary) :
    (f.apply A B).alphabet = f.alphabet A.alphabet B.alphabet := by
  cases f with
  | union => exact Automaton.alphabet_union A B
  | concatenate => exact Automaton.alphabet_concatenate A B
  | intersection => exact Automaton.alphabet_intersection A B
  | difference => exact Automaton.alphabet_difference hA

end Binary

namespace Construction

/-- Every automaton that is given is valid and stored without empty entries. -/
def Sound : Construction → Prop
  | given S => S.WellFormed
  | unary _ X => X.Sound
  | binary _ X Y => X.Sound ∧ Y.Sound

theorem yields_run {X : Construction} (h : X.Sound) : Yields X.run X.eval := by
  induction X with
  | given S => exact ⟨S, rfl, rfl, h⟩
  | unary f X ih =>
    refine yields_bind (ih h) fun S hS heq => ?_
    rw [eval, ← heq]
    exact f.yields_run hS
  | binary f X Y ihX ihY =>
    refine yields_bind (ihX h.1) fun S hS hX => ?_
    refine yields_bind (ihY h.2) fun T hT hY => ?_
    rw [eval, ← hX, ← hY]
    exact f.yields_run hS hT

theorem eval_valid {X : Construction} (h : X.Sound) : X.eval.Valid := by
  obtain ⟨S, -, heq, hS⟩ := yields_run h
  exact heq ▸ hS.valid

theorem alphabet_eval {X : Construction} (h : X.Sound) : X.eval.alphabet = X.alphabet := by
  induction X with
  | given S => rfl
  | unary f X ih => rw [eval, f.alphabet_apply, ih h, alphabet]
  | binary f X Y ihX ihY =>
    rw [eval, f.alphabet_apply (eval_valid h.1), ihX h.1, ihY h.2, alphabet]

/-- **Compositions of constructions store valid automata**, provided that the automata they start
from are valid: no assertion fails on the way, and what is stored in the end is the automaton
that is constructed. It is valid again, has no empty entry, and its alphabet is the one that is
promised. -/
theorem exists_run_eq_ok (X : Construction) (h : X.Sound) :
    ∃ T, X.run = .ok T ∧ T.WellFormed ∧ T.alphabet = X.alphabet ∧ T.toAutomaton = X.eval := by
  obtain ⟨T, hrun, heq, hT⟩ := yields_run h
  refine ⟨T, hrun, hT, ?_, heq⟩
  rw [← alphabet_toAutomaton, heq, alphabet_eval h]

/-- The union of the canonical automaton of a loop and a complement of its repetition: `ε` is not
taken into the alphabet. -/
theorem run_union_canonicalize_complementOver :
    let S := ((void (.ofList ['a'])).attemptAll [.addState ⟨"p"⟩, .setInitial ⟨"p"⟩,
      .addEdge ⟨⟨"p"⟩, .symbol 'a', ⟨"p"⟩⟩]).2
    let X := binary .union (unary .canonicalize (given S))
      (unary (.complementOver (.ofList ['b', epsilonChar])) (unary .star (given S)))
    X.Sound ∧ ∃ T, X.run = .ok T ∧ T.WellFormed ∧ T.alphabet = .ofList ['a', 'b'] ∧
      T.toAutomaton = X.eval := by
  intro S X
  have hS : S.WellFormed := (simulates_all _ (wellFormed_void (by decide))).2
  have halphabet : X.alphabet = .ofList ['a', 'b'] := by decide +kernel
  exact ⟨⟨hS, hS⟩, halphabet ▸ exists_run_eq_ok X ⟨hS, hS⟩⟩

end Construction

end RegularLanguages
