import RegularLanguages.Proofs.Automaton.Making
import RegularLanguages.Proofs.Record.Exchange
import RegularLanguages.Proofs.Regex.Positions
import RegularLanguages.Proofs.Regex.Thompson
import RegularLanguages.Regex.Stored

/-!
# Automata of expressions in exchange

The alphabet of both constructions are the symbols that occur in the expression, and a symbol may
be any character. States, ends and labels of what is constructed always fit together
(`Coherent`), so the only promise that can be broken is that `ε` is not in the alphabet. This
happens iff `ε` occurs as a symbol; then the assertion on new alphabets fails, and the record of
the automaton is refused.

Results:
* `thompson_coherent`, `glushkov_coherent`: what holds of every expression.
* `yields_storeThompson`, `yields_storeGlushkov`: without the symbol `ε` no assertion fails.
* `ofJson_toJson_of_epsilon`: no automaton with `ε` in its alphabet is read back.
* **`thompson_and_glushkov_exchanged_iff`**: the expressions whose automata keep all promises.
-/

namespace RegularLanguages

namespace Automaton

variable {A : Automaton}

/-- Initial state, final states and ends of transitions are states, and labels are over the
alphabet. Nothing is said about the alphabet itself. -/
structure Coherent (A : Automaton) : Prop where
  initial_mem : ∀ q, A.initial = some q → q ∈ A.states
  final_mem : ∀ q, q ∈ A.finals → q ∈ A.states
  source_mem : ∀ e, e ∈ A.edges → e.source ∈ A.states
  target_mem : ∀ e, e ∈ A.edges → e.target ∈ A.states
  label_mem : ∀ e, e ∈ A.edges → ∀ c, e.label = .symbol c → c ∈ A.alphabet

theorem Coherent.valid_iff (hA : A.Coherent) : A.Valid ↔ epsilonChar ∉ A.alphabet := by
  refine ⟨fun h => h.epsilon_not_mem, fun hε => ?_⟩
  exact ⟨hA.initial_mem, hA.final_mem, hA.source_mem, hA.target_mem, hA.label_mem, hε⟩

/-- An automaton with `ε` in its alphabet is not read back: its record is refused for this
symbol. -/
theorem ofJson_toJson_of_epsilon (hε : epsilonChar ∈ A.alphabet) :
    Automaton.ofJson A.toJson = .error (.notAutomaton (.unknownSymbol epsilonChar.toString)) := by
  have hsymbols : (Record.ofAutomaton A).alphabet.mapM Record.parseSymbol =
      .ok A.alphabet.toList := Record.mapM_parseSymbol_eq_ok.mpr rfl
  have halphabet : ofSymbols A.alphabet.toList =
      .error (.unknownSymbol epsilonChar.toString) := if_pos hε
  have hrefused : (Record.ofAutomaton A).toAutomaton =
      .error (.unknownSymbol epsilonChar.toString) := by
    rw [Record.toAutomaton, hsymbols]
    show (ofSymbols A.alphabet.toList >>= _) = _
    rw [halphabet]
    rfl
  rw [Record.ofJson_toJson_eq, hrefused]

end Automaton

namespace Regex

open StoredAutomaton (Yields)

variable {r : Regex} {n i j : Nat} {c : Char} {q : State}

theorem mem_symbols : c ∈ r.symbols ↔ c ∈ r.leaves := OrderedSet.mem_ofList

/-! ## Thompson's automaton -/

/-- The symbols on the transitions of a fragment occur in the expression. -/
theorem mem_leaves_of_fragment : ∀ {r : Regex} {n i j : Nat},
    (i, .symbol c, j) ∈ (r.fragment n).edges → c ∈ r.leaves
  | epsilon, _, _, _, he => by simp [fragment] at he
  | symbol d, _, _, _, he => by
    obtain ⟨-, rfl, -⟩ := by simpa [fragment] using he
    exact List.mem_singleton_self _
  | union l r, n, i, j, he => by
    have hparts : (i, .symbol c, j) ∈ (l.fragment (n + 1)).edges ∨
        (i, .symbol c, j) ∈ (r.fragment (l.fragment (n + 1)).next).edges := by
      simpa [fragment] using he
    exact List.mem_append.mpr (hparts.imp mem_leaves_of_fragment mem_leaves_of_fragment)
  | concat l r, n, i, j, he => by
    have hparts : (i, .symbol c, j) ∈ (l.fragment n).edges ∨
        (i, .symbol c, j) ∈ (r.fragment (l.fragment n).next).edges := by
      simpa [fragment] using he
    exact List.mem_append.mpr (hparts.imp mem_leaves_of_fragment mem_leaves_of_fragment)
  | star r, n, i, j, he => by
    have hbody : (i, .symbol c, j) ∈ (r.fragment (n + 1)).edges := by simpa [fragment] using he
    exact mem_leaves_of_fragment (r := r) hbody

theorem node_mem_states (hi : i < (r.fragment 0).next) : node i ∈ r.thompson.states :=
  OrderedSet.mem_ofList.mpr (List.mem_map.mpr ⟨i, List.mem_range.mpr hi, rfl⟩)

/-- **Thompson's automaton fits together**, whatever the symbols. -/
theorem thompson_coherent (r : Regex) : r.thompson.Coherent := by
  have hwithin := fragment_within r 0
  constructor
  case initial_mem =>
    intro q hq
    obtain rfl := Option.some.inj hq
    exact node_mem_states hwithin.entry.2
  case final_mem =>
    intro q hq
    obtain rfl : q = node (r.fragment 0).exit := by simpa [thompson] using hq
    exact node_mem_states hwithin.exit.2
  case source_mem =>
    intro e he
    obtain ⟨i, a, j, hmem, rfl⟩ := mem_edges_thompson.mp he
    exact node_mem_states (hwithin.edges hmem).1.2
  case target_mem =>
    intro e he
    obtain ⟨i, a, j, hmem, rfl⟩ := mem_edges_thompson.mp he
    exact node_mem_states (hwithin.edges hmem).2.2
  case label_mem =>
    intro e he c hc
    obtain ⟨i, a, j, hmem, rfl⟩ := mem_edges_thompson.mp he
    obtain rfl : a = .symbol c := hc
    exact mem_symbols.mpr (mem_leaves_of_fragment hmem)

/-- Without the symbol `ε` Thompson's automaton is written and no assertion fails. -/
theorem yields_storeThompson (hr : r.thompson.Valid) : Yields r.storeThompson r.thompson :=
  StoredAutomaton.yields_make hr (Automaton.makes_ofLists _ _ _ _ _)

/-! ## The position automaton -/

theorem placed_mem_states (hi : i ≤ r.leaves.length) : placed i ∈ r.glushkov.states := by
  rw [states_glushkov]
  exact OrderedSet.mem_ofList.mpr
    (List.mem_map.mpr ⟨i, List.mem_range.mpr (Nat.lt_succ_of_le hi), rfl⟩)

/-- **The position automaton fits together**, whatever the symbols. -/
theorem glushkov_coherent (r : Regex) : r.glushkov.Coherent := by
  have hwithin := positions_within r 0
  have hstate {i : Nat} (hi : i ≤ (r.positions 0).count) : placed i ∈ r.glushkov.states :=
    placed_mem_states (by rwa [count_positions, Nat.zero_add] at hi)
  constructor
  case initial_mem =>
    intro q hq
    obtain rfl := Option.some.inj hq
    exact hstate (Nat.zero_le _)
  case final_mem =>
    intro q hq
    obtain ⟨i, hi, rfl⟩ := List.mem_map.mp (OrderedSet.mem_ofList.mp hq)
    rcases mem_finals_glushkov.mp hq with ⟨rfl, -⟩ | hi
    · exact hstate (Nat.zero_le _)
    · exact hstate (hwithin.last hi).2
  case source_mem =>
    intro e he
    obtain ⟨i, j, c, ⟨rfl, -⟩ | hij, -, rfl⟩ := mem_edges_glushkov.mp he
    · exact hstate (Nat.zero_le _)
    · exact hstate (hwithin.follow hij).1.2
  case target_mem =>
    intro e he
    obtain ⟨i, j, c, ⟨-, hj⟩ | hij, -, rfl⟩ := mem_edges_glushkov.mp he
    · exact hstate (hwithin.first hj).2
    · exact hstate (hwithin.follow hij).2.2
  case label_mem =>
    intro e he c hc
    obtain ⟨i, d, -, hleaf, hlabel⟩ := edge_glushkov he
    obtain rfl : d = c := Label.symbol.inj (hlabel.symm.trans hc)
    exact mem_symbols.mpr (List.mem_of_getElem? hleaf)

/-- Without the symbol `ε` the position automaton is written and no assertion fails. -/
theorem yields_storeGlushkov (hr : r.glushkov.Valid) : Yields r.storeGlushkov r.glushkov :=
  StoredAutomaton.yields_make hr (Automaton.makes_ofLists _ _ _ _ _)

/-! ## Which promises are kept -/

theorem make_of_epsilon (hε : epsilonChar ∈ r.leaves) (writes : List Write) :
    StoredAutomaton.make r.symbols writes = .error .alphabet := by
  rw [StoredAutomaton.make, StoredAutomaton.blank, if_pos (mem_symbols.mpr hε)]
  rfl

/-- What is promised of an automaton that is constructed from an expression by unchecked writes,
and when the promises are kept. -/
structure Keeps (r : Regex) (A : Automaton) (stored : Except Violation StoredAutomaton) :
    Prop where
  coherent : A.Coherent
  alphabet : A.alphabet = .ofList r.leaves
  valid_iff : A.Valid ↔ epsilonChar ∉ r.leaves
  stored_iff : Yields stored A ↔ epsilonChar ∉ r.leaves
  read_back_iff : Automaton.ofJson A.toJson = .ok A ↔ epsilonChar ∉ r.leaves
  refused : epsilonChar ∈ r.leaves → stored = .error .alphabet ∧
    Automaton.ofJson A.toJson = .error (.notAutomaton (.unknownSymbol epsilonChar.toString))

theorem keeps_of_coherent {A : Automaton} {stored : Except Violation StoredAutomaton}
    (hA : A.Coherent) (halphabet : A.alphabet = .ofList r.leaves)
    (hstored : A.Valid → Yields stored A)
    (hviolated : epsilonChar ∈ r.leaves → stored = .error .alphabet) : r.Keeps A stored := by
  have hvalid : A.Valid ↔ epsilonChar ∉ r.leaves := by
    rw [hA.valid_iff, halphabet, OrderedSet.mem_ofList]
  have hrefused (hε : epsilonChar ∈ r.leaves) := A.ofJson_toJson_of_epsilon
    (halphabet ▸ OrderedSet.mem_ofList.mpr hε)
  constructor
  case coherent => exact hA
  case alphabet => exact halphabet
  case valid_iff => exact hvalid
  case stored_iff =>
    refine ⟨?_, fun hε => hstored (hvalid.mpr hε)⟩
    rintro ⟨S, hS, -⟩ hε
    rw [hviolated hε] at hS
    exact nomatch hS
  case read_back_iff =>
    refine ⟨fun h hε => ?_, fun hε => Record.ofJson_toJson (hvalid.mpr hε)⟩
    rw [hrefused hε] at h
    exact nomatch h
  case refused => exact fun hε => ⟨hviolated hε, hrefused hε⟩

/-- **Automata of expressions in exchange.** Both constructions fit together for every expression.
They are valid, are made without a violated assertion, and are read back from their records iff
`ε` does not occur as a symbol; otherwise the records are refused for `ε`. -/
theorem thompson_and_glushkov_exchanged_iff (r : Regex) :
    r.Keeps r.thompson r.storeThompson ∧ r.Keeps r.glushkov r.storeGlushkov :=
  ⟨keeps_of_coherent (thompson_coherent r) rfl yields_storeThompson
      fun hε => make_of_epsilon hε _,
    keeps_of_coherent (glushkov_coherent r) rfl yields_storeGlushkov
      fun hε => make_of_epsilon hε _⟩

/-- The expression that consists of `ε` as a symbol keeps none of the promises about its
alphabet. -/
theorem not_exchanged_symbol_epsilon :
    let r := symbol epsilonChar
    ¬ r.thompson.Valid ∧ ¬ r.glushkov.Valid ∧
      Automaton.ofJson r.thompson.toJson ≠ .ok r.thompson ∧
      Automaton.ofJson r.glushkov.toJson ≠ .ok r.glushkov := by
  intro r
  have hleaf : epsilonChar ∈ r.leaves := List.mem_singleton_self _
  have hmem (A : Automaton) (h : A.alphabet = r.symbols) : epsilonChar ∈ A.alphabet :=
    h ▸ mem_symbols.mpr hleaf
  have hread (A : Automaton) (h : A.alphabet = r.symbols) : Automaton.ofJson A.toJson ≠ .ok A := by
    rw [A.ofJson_toJson_of_epsilon (hmem A h)]
    exact fun h => nomatch h
  exact ⟨fun h => h.epsilon_not_mem (hmem _ rfl), fun h => h.epsilon_not_mem (hmem _ rfl),
    hread _ rfl, hread _ rfl⟩

end Regex

end RegularLanguages
