import RegularLanguages.Proofs.Automaton.Editing
import RegularLanguages.Record.Meaning

/-!
# A record is converted iff it fits

The checks on the way look at the alphabet and the states only, and these stay as they are while
transitions and final states are added. So every check can be told from the record alone, and the
edits add up to the automaton that the record describes.

Results:
* `addEntries_eq_ok`, `addRows_eq_ok`, `addInitial_eq_ok`, `addFinals_eq_ok`: when each part of a
  record passes its checks, and what it adds.
* **`toAutomaton_eq_ok`**: a record that fits gives the automaton it describes; no other gives one.
* **`toAutomaton_eq_error`**: if the symbols are fine, a state is named that the record refers to
  but does not list.
-/

namespace RegularLanguages.Record

variable {R : Record} {A B : Automaton} {source text : String}
  {entry : String × List String} {entries : List (String × List String)}
  {rows : List (String × List (String × List String))}

/-! ## Symbols -/

theorem parseSymbol_eq_ok {c : Char} : parseSymbol text = .ok c ↔ text = c.toString := by
  rw [← String.toList_inj, Char.toString, String.toList_singleton]
  unfold parseSymbol
  split
  · rename_i d hd
    rw [hd, Except.ok.injEq, List.cons.injEq]
    exact (and_iff_left rfl).symm
  · rename_i hne
    exact iff_of_false (by simp) fun h => hne c h

theorem mapM_parseSymbol_eq_ok {texts : List String} {symbols : List Char} :
    texts.mapM parseSymbol = .ok symbols ↔ texts = symbols.map Char.toString := by
  simp only [mapM_eq_ok_iff, parseSymbol_eq_ok]
  rw [← List.forall₂_map_right_iff (R := Eq), List.forall₂_eq_eq_eq]

/-- The symbols that single characters are. -/
theorem flatMap_toList_map (symbols : List Char) :
    (symbols.map Char.toString).flatMap String.toList = symbols := by
  rw [List.flatMap_map]
  simp

theorem labelOf_toString (c : Char) : labelOf c.toString = .ofChar c := by
  simp [labelOf]

/-- The label that a character writes is over the alphabet iff the character is `ε` or in it. -/
theorem ofChar_label_mem_iff {c : Char} {alphabet : OrderedSet Char} :
    (∀ d, Label.ofChar c = .symbol d → d ∈ alphabet) ↔ c = epsilonChar ∨ c ∈ alphabet := by
  unfold Label.ofChar
  split
  · rename_i hc
    exact iff_of_true (fun d hd => nomatch hd) (Or.inl hc)
  · rename_i hc
    rw [or_iff_right hc]
    exact ⟨fun h => h c rfl, fun h d hd => Label.symbol.inj hd ▸ h⟩

/-! ## Transitions -/

/-- The entry names a label over the alphabet, and its source and targets are states. -/
def Passes (states : OrderedSet State) (alphabet : OrderedSet Char) (source : String)
    (entry : String × List String) : Prop :=
  (∃ c, entry.1 = c.toString ∧ (c = epsilonChar ∨ c ∈ alphabet)) ∧
    ∀ q ∈ source :: entry.2, ⟨q⟩ ∈ states

/-- The automaton with further transitions. -/
def withEdges (A : Automaton) (edges : List Edge) : Automaton :=
  { A with edges := .ofList edges ∪ A.edges }

theorem withEdges_withEdges (A : Automaton) (es fs : List Edge) :
    withEdges (withEdges A es) fs = withEdges A (es ++ fs) := by
  have hedges : OrderedSet.ofList fs ∪ (OrderedSet.ofList es ∪ A.edges) =
      .ofList (es ++ fs) ∪ A.edges := OrderedSet.ext_mem fun e => by
    simp only [OrderedSet.mem_union, OrderedSet.mem_ofList, List.mem_append]
    rw [← or_assoc, or_comm (a := e ∈ fs)]
  exact congrArg (fun edges => { A with edges := edges }) hedges

theorem withEdges_nil (A : Automaton) : withEdges A [] = A := rfl

theorem foldl_withEdges {α : Type} (f : α → List Edge) : ∀ (xs : List α) (A : Automaton),
    xs.foldl (fun A x => withEdges A (f x)) A = withEdges A (xs.flatMap f)
  | [], A => (withEdges_nil A).symm
  | x :: xs, A => by
    rw [List.foldl_cons, foldl_withEdges f xs, withEdges_withEdges, List.flatMap_cons]

/-- An entry is added if it passes. -/
theorem addEntry_eq_ok :
    (do
      let c ← parseSymbol entry.1
      A.addTransition ⟨source⟩ (.ofChar c) (entry.2.map State.mk)) = .ok B ↔
      Passes A.states A.alphabet source entry ∧ B = withEdges A (entryEdges source entry) := by
  have hedges (c : Char) (hc : entry.1 = c.toString) :
      (entry.2.map State.mk).map (fun q => (⟨⟨source⟩, .ofChar c, q⟩ : Edge)) =
        entryEdges source entry := by
    rw [entryEdges, hc, labelOf_toString, List.map_map]
    rfl
  simp only [Passes, List.forall_mem_cons]
  constructor
  · intro h
    obtain ⟨c, hc, h⟩ := bind_eq_ok h
    have hc := parseSymbol_eq_ok.mp hc
    obtain ⟨hlabel, hsource, htargets, rfl⟩ := Automaton.addTransition_eq_ok.mp h
    rw [hedges c hc]
    exact ⟨⟨⟨c, hc, ofChar_label_mem_iff.mp hlabel⟩, hsource, List.forall_mem_map.mp htargets⟩, rfl⟩
  · rintro ⟨⟨⟨c, hc, hlabel⟩, hsource, htargets⟩, rfl⟩
    rw [parseSymbol_eq_ok.mpr hc]
    refine Automaton.addTransition_eq_ok.mpr ⟨ofChar_label_mem_iff.mpr hlabel, hsource,
      List.forall_mem_map.mpr htargets, ?_⟩
    rw [hedges c hc]
    rfl

/-- Both automata have the same states and the same alphabet, which is what the checks look at. -/
def Checked (A B : Automaton) : Prop := B.states = A.states ∧ B.alphabet = A.alphabet

theorem addEntries_eq_ok :
    addEntries source A entries = .ok B ↔
      (∀ entry ∈ entries, Passes A.states A.alphabet source entry) ∧
        B = withEdges A (entries.flatMap (entryEdges source)) := by
  rw [addEntries, ← foldl_withEdges]
  refine foldlM_eq_ok_iff (P := Checked A) (fun C entry D hC => ?_) ?_ ⟨rfl, rfl⟩
  case refine_2 => exact fun C entry hC => hC
  rw [← hC.1, ← hC.2]
  exact addEntry_eq_ok

theorem addRows_eq_ok :
    rows.foldlM (fun A (source, entries) => addEntries source A entries) A = .ok B ↔
      (∀ row ∈ rows, ∀ entry ∈ row.2, Passes A.states A.alphabet row.1 entry) ∧
        B = withEdges A (rows.flatMap fun row => row.2.flatMap (entryEdges row.1)) := by
  rw [← foldl_withEdges]
  refine foldlM_eq_ok_iff (P := Checked A) (fun C row D hC => ?_) ?_ ⟨rfl, rfl⟩
  case refine_2 => exact fun C row hC => hC
  rw [← hC.1, ← hC.2]
  exact addEntries_eq_ok

/-! ## States -/

theorem foldl_addState (names : List String) (A : Automaton) :
    names.foldl (fun A q => A.addState ⟨q⟩) A =
      { A with states := .ofList (names.map State.mk) ∪ A.states } := by
  rw [← Automaton.foldl_addState, List.foldl_map]

theorem addFinals_eq_ok {names : List String} :
    names.foldlM (fun A q => A.addFinal ⟨q⟩) A = .ok B ↔
      (∀ q ∈ names, ⟨q⟩ ∈ A.states) ∧
        B = { A with finals := .ofList (names.map State.mk) ∪ A.finals } := by
  rw [← List.foldlM_map, Automaton.foldlM_addFinal_eq_ok, List.forall_mem_map]

/-- The new initial state is named `init`, unless this is the name of another state. -/
theorem newStart_of_not_mem {states : OrderedSet State} (h : ⟨"init"⟩ ∉ states) :
    newStart states = ⟨"init"⟩ := by
  have hused : ⟨"init"⟩ ∉ (FreshNames.avoiding states.toList).used := by
    rw [FreshNames.avoiding, Std.HashSet.mem_ofList, List.contains_iff_mem]
    exact h
  rw [newStart, FreshNames.claim, if_neg hused]

/-- A new initial state may lead to any states. -/
theorem fanOut_eq_ok {targets : List State} {start : State} :
    (do
      let targets ← targets.mapM A.checkState
      let C ← (A.addState start).addTransition start .epsilon targets
      C.setInitial start) = .ok B ↔
      (∀ q ∈ targets, q ∈ A.states) ∧
        B = { A with
          states := A.states.insert start
          edges := .ofList (targets.map fun q => ⟨start, .epsilon, q⟩) ∪ A.edges
          initial := some start } := by
  have hstart : start ∈ (A.addState start).states := OrderedSet.mem_insert.mpr (Or.inl rfl)
  simp only [bind_eq_ok_iff, Automaton.mapM_checkState_eq_ok, Automaton.addTransition_eq_ok,
    Automaton.setInitial_eq_ok]
  constructor
  · rintro ⟨_, ⟨rfl, htargets⟩, _, ⟨-, -, -, rfl⟩, -, rfl⟩
    exact ⟨htargets, rfl⟩
  · rintro ⟨htargets, rfl⟩
    have hsome (q : State) (hq : q ∈ targets) : q ∈ (A.addState start).states :=
      OrderedSet.mem_insert.mpr (Or.inr (htargets q hq))
    exact ⟨targets, ⟨rfl, htargets⟩,
      withEdges (A.addState start) (targets.map fun q => ⟨start, .epsilon, q⟩),
      ⟨fun c hc => absurd hc (by simp), hstart, hsome, rfl⟩, hstart, rfl⟩

/-- The initial states pass if they are states. -/
theorem addInitial_eq_ok : ∀ {initial : List String},
    addInitial A initial = .ok B ↔ (∀ q ∈ initial, ⟨q⟩ ∈ A.states) ∧ B = startingAt A initial
  | [] => by
    rw [addInitial, Except.ok.injEq, eq_comm]
    exact (and_iff_right (by simp)).symm
  | [q] => by
    rw [addInitial, Automaton.setInitial_eq_ok, List.forall_mem_singleton]
    rfl
  | p :: q :: qs => by
    have hstart : startingAt A (p :: q :: qs) =
        { A with
          states := A.states.insert (newStart A.states)
          edges := .ofList (((p :: q :: qs).map State.mk).map fun r =>
            ⟨newStart A.states, .epsilon, r⟩) ∪ A.edges
          initial := some (newStart A.states) } := by
      rw [List.map_map]
      rfl
    rw [hstart, ← List.forall_mem_map (P := fun r => r ∈ A.states)]
    exact fanOut_eq_ok

/-! ## Whole records -/

theorem mem_listedStates {q : String} : ⟨q⟩ ∈ R.listedStates ↔ q ∈ R.states := by
  simp [listedStates]

/-- The symbols of the alphabet, if its entries are single characters. -/
theorem symbolsFit_iff : R.SymbolsFit ↔
    ∃ symbols : List Char, R.alphabet = symbols.map Char.toString ∧ epsilonChar ∉ symbols ∧
      ∀ row ∈ R.transitions, ∀ entry ∈ row.2,
        ∃ c, entry.1 = c.toString ∧ (c = epsilonChar ∨ c ∈ OrderedSet.ofList symbols) := by
  have hmem {symbols : List Char} {c : Char} :
      c.toString ∈ symbols.map Char.toString ↔ c ∈ OrderedSet.ofList symbols := by
    rw [OrderedSet.mem_ofList, List.mem_map]
    exact ⟨fun ⟨d, hd, he⟩ => String.singleton_inj.mp he ▸ hd, fun hc => ⟨c, hc, rfl⟩⟩
  constructor
  · intro h
    choose! f hf using h.alphabet
    have halphabet : R.alphabet = (R.alphabet.map f).map Char.toString := by
      rw [List.map_map]
      exact (List.map_id R.alphabet).symm.trans (List.map_congr_left fun text ht => (hf text ht).1)
    refine ⟨R.alphabet.map f, halphabet, ?_, fun row hrow entry hentry => ?_⟩
    · intro hε
      obtain ⟨text, ht, he⟩ := List.mem_map.mp hε
      exact (hf text ht).2 he
    · obtain ⟨c, hc, hor⟩ := h.keys row hrow entry hentry
      rw [halphabet] at hor
      exact ⟨c, hc, hor.imp_right hmem.mp⟩
  · rintro ⟨symbols, halphabet, hε, hkeys⟩
    constructor
    · intro text ht
      rw [halphabet] at ht
      obtain ⟨c, hc, rfl⟩ := List.mem_map.mp ht
      exact ⟨c, rfl, fun he => hε (he ▸ hc)⟩
    · intro row hrow entry hentry
      obtain ⟨c, hc, hor⟩ := hkeys row hrow entry hentry
      rw [halphabet]
      exact ⟨c, hc, hor.imp_right hmem.mpr⟩

theorem references_iff {P : String → Prop} : (∀ q ∈ R.references, P q) ↔
    (∀ row ∈ R.transitions, ∀ entry ∈ row.2, ∀ q ∈ row.1 :: entry.2, P q) ∧
      ∀ q ∈ R.initial, P q := by
  simp only [references, List.forall_mem_append, List.forall_mem_flatMap]

theorem mem_states_startingAt {q : State} : ∀ {initial : List String},
    q ∈ (startingAt A initial).states ↔
      q ∈ A.states ∨ 1 < initial.length ∧ q = newStart A.states
  | [] => by simp [startingAt]
  | [_] => by simp [startingAt]
  | _ :: _ :: _ => by simp [startingAt, or_comm]

theorem finals_startingAt : ∀ {initial : List String}, (startingAt A initial).finals = A.finals
  | [] => rfl
  | [_] => rfl
  | _ :: _ :: _ => rfl

/-- A record fits iff each of its parts passes its checks. -/
theorem fits_iff : R.Fits ↔
    ∃ symbols : List Char, R.alphabet = symbols.map Char.toString ∧ epsilonChar ∉ symbols ∧
      (∀ row ∈ R.transitions, ∀ entry ∈ row.2,
        Passes R.listedStates (.ofList symbols) row.1 entry) ∧
      (∀ q ∈ R.initial, ⟨q⟩ ∈ R.listedStates) ∧
      ∀ q ∈ R.finals, ⟨q⟩ ∈ (startingAt R.listed R.initial).states := by
  have hfinal (q : String) : ⟨q⟩ ∈ (startingAt R.listed R.initial).states ↔
      q ∈ R.states ∨ 1 < R.initial.length ∧ ⟨q⟩ = newStart R.listedStates :=
    mem_states_startingAt.trans (or_congr_left mem_listedStates)
  constructor
  · intro h
    obtain ⟨symbols, halphabet, hε, hkeys⟩ := symbolsFit_iff.mp h.symbols
    obtain ⟨hrows, hinitial⟩ := references_iff.mp h.references
    refine ⟨symbols, halphabet, hε, fun row hrow entry hentry => ?_, ?_, ?_⟩
    · exact ⟨hkeys row hrow entry hentry,
        fun q hq => mem_listedStates.mpr (hrows row hrow entry hentry q hq)⟩
    · exact fun q hq => mem_listedStates.mpr (hinitial q hq)
    · exact fun q hq => (hfinal q).mpr (h.finals q hq)
  · rintro ⟨symbols, halphabet, hε, hrows, hinitial, hfinals⟩
    constructor
    case symbols =>
      exact symbolsFit_iff.mpr ⟨symbols, halphabet, hε,
        fun row hrow entry hentry => (hrows row hrow entry hentry).1⟩
    case references =>
      refine references_iff.mpr ⟨fun row hrow entry hentry q hq => ?_, fun q hq => ?_⟩
      · exact mem_listedStates.mp ((hrows row hrow entry hentry).2 q hq)
      · exact mem_listedStates.mp (hinitial q hq)
    case finals => exact fun q hq => (hfinal q).mp (hfinals q hq)

theorem foldl_addState_void (alphabet : OrderedSet Char) :
    R.states.foldl (fun A q => A.addState ⟨q⟩) (Automaton.void alphabet) =
      { Automaton.void alphabet with states := R.listedStates } := by
  rw [foldl_addState]
  exact congrArg (fun states => { Automaton.void alphabet with states := states })
    (OrderedSet.union_empty R.listedStates)

/-- The states, symbols and transitions are what the record lists. -/
theorem withEdges_eq_listed {symbols : List Char} (h : R.alphabet = symbols.map Char.toString) :
    withEdges { Automaton.void (.ofList symbols) with states := R.listedStates } R.listedEdges =
      R.listed := by
  have halphabet : R.alphabet.flatMap String.toList = symbols := h ▸ flatMap_toList_map symbols
  rw [listed, halphabet, ← OrderedSet.union_empty (.ofList R.listedEdges)]
  rfl

/-- **A record is converted iff it fits**, and then to the automaton that it describes. -/
theorem toAutomaton_eq_ok : R.toAutomaton = .ok A ↔ R.Fits ∧ A = R.described := by
  have hfinals : ({ startingAt R.listed R.initial with
      finals := .ofList (R.finals.map State.mk) ∪ (startingAt R.listed R.initial).finals } :
        Automaton) = R.described := by
    rw [finals_startingAt]
    exact congrArg (fun finals => { startingAt R.listed R.initial with finals := finals })
      (OrderedSet.union_empty (.ofList (R.finals.map State.mk)))
  simp only [toAutomaton, bind_eq_ok_iff, mapM_parseSymbol_eq_ok, Automaton.ofSymbols_eq_ok,
    addRows_eq_ok, addInitial_eq_ok, addFinals_eq_ok, fits_iff]
  constructor
  · rintro ⟨symbols, halphabet, _, ⟨hε, rfl⟩, _, ⟨hrows, rfl⟩, _, ⟨hinitial, rfl⟩, hfin, rfl⟩
    rw [foldl_addState_void] at hrows hinitial hfin ⊢
    rw [← listedEdges, withEdges_eq_listed halphabet] at hfin hinitial ⊢
    exact ⟨⟨symbols, halphabet, hε, hrows, hinitial, hfin⟩, hfinals⟩
  · rintro ⟨⟨symbols, halphabet, hε, hrows, hinitial, hfin⟩, rfl⟩
    refine ⟨symbols, halphabet, _, ⟨hε, rfl⟩, R.listed, ?_, _, ⟨hinitial, rfl⟩, hfin, hfinals.symm⟩
    rw [foldl_addState_void, ← listedEdges, withEdges_eq_listed halphabet]
    exact ⟨hrows, rfl⟩

/-! ## Refusals -/

/-- The error names one of the given states, which is no state of the automaton. -/
def NamesMissing (A : Automaton) (names : List String) (error : AutomatonError) : Prop :=
  ∃ q ∈ names, ⟨q⟩ ∉ A.states ∧ error = .unknownState ⟨q⟩

theorem checkState_eq_error {q : State} {error : AutomatonError}
    (h : A.checkState q = .error error) : q ∉ A.states ∧ error = .unknownState q := by
  unfold Automaton.checkState at h
  split at h
  · exact nomatch h
  · rename_i hq
    exact ⟨hq, (Except.error.inj h).symm⟩

theorem namesMissing_of_checkStates {names : List String} {error : AutomatonError}
    (h : (names.map State.mk).mapM A.checkState = .error error) : NamesMissing A names error := by
  obtain ⟨_, hmem, h⟩ := mapM_eq_error h
  obtain ⟨q, hq, rfl⟩ := List.mem_map.mp hmem
  exact ⟨q, hq, checkState_eq_error h⟩

/-- Transitions whose label is fine are refused because of their source or a target. -/
theorem addTransition_eq_error {a : Label} {targets : List String} {error : AutomatonError}
    (ha : ∀ c, a = .symbol c → c ∈ A.alphabet)
    (h : A.addTransition ⟨source⟩ a (targets.map State.mk) = .error error) :
    NamesMissing A (source :: targets) error := by
  rcases bind_eq_error h with h | ⟨_, -, h⟩
  · rw [Automaton.checkLabel_eq_ok.mpr ⟨rfl, ha⟩] at h
    exact nomatch h
  rcases bind_eq_error h with h | ⟨_, -, h⟩
  · exact ⟨source, List.mem_cons_self, checkState_eq_error h⟩
  · rcases bind_eq_error h with h | ⟨_, -, h⟩
    · obtain ⟨q, hq, hmissing⟩ := namesMissing_of_checkStates h
      exact ⟨q, List.mem_cons_of_mem _ hq, hmissing⟩
    · exact nomatch h

/-- Rows whose keys are fine are refused because of a source or a target. -/
theorem addRows_eq_error {error : AutomatonError}
    (hkeys : ∀ row ∈ rows, ∀ entry ∈ row.2,
      ∃ c, entry.1 = c.toString ∧ (c = epsilonChar ∨ c ∈ A.alphabet))
    (h : rows.foldlM (fun A (source, entries) => addEntries source A entries) A = .error error) :
    ∃ row ∈ rows, ∃ entry ∈ row.2, NamesMissing A (row.1 :: entry.2) error := by
  have hrows (C : Automaton) (row : String × List (String × List String)) (D : Automaton)
      (hC : Checked A C) (h : addEntries row.1 C row.2 = .ok D) : Checked A D := by
    obtain ⟨-, rfl⟩ := addEntries_eq_ok.mp h
    exact hC
  obtain ⟨row, hrow, C, hC, h⟩ := foldlM_eq_error hrows h ⟨rfl, rfl⟩
  have hentries (D : Automaton) (entry : String × List String) (E : Automaton)
      (hD : Checked A D) (h : (do
        let c ← parseSymbol entry.1
        D.addTransition ⟨row.1⟩ (.ofChar c) (entry.2.map State.mk)) = .ok E) : Checked A E := by
    obtain ⟨-, rfl⟩ := addEntry_eq_ok.mp h
    exact hD
  obtain ⟨entry, hentry, D, hD, h⟩ := foldlM_eq_error hentries h hC
  obtain ⟨c, hc, hlabel⟩ := hkeys row hrow entry hentry
  rw [parseSymbol_eq_ok.mpr hc] at h
  rw [← hD.2] at hlabel
  obtain ⟨q, hq, hmissing⟩ := addTransition_eq_error (ofChar_label_mem_iff.mpr hlabel) h
  rw [hD.1] at hmissing
  exact ⟨row, hrow, entry, hentry, q, hq, hmissing⟩

theorem addInitial_eq_error {error : AutomatonError} : ∀ {initial : List String},
    addInitial A initial = .error error → NamesMissing A initial error
  | [], h => nomatch h
  | [q], h => by
    rcases bind_eq_error h with h | ⟨_, -, h⟩
    · exact ⟨q, List.mem_cons_self, checkState_eq_error h⟩
    · exact nomatch h
  | p :: q :: qs, h => by
    by_cases hlisted : ∀ r ∈ p :: q :: qs, ⟨r⟩ ∈ A.states
    · -- the new state is always accepted
      rw [addInitial_eq_ok.mpr ⟨hlisted, rfl⟩] at h
      exact nomatch h
    · rcases bind_eq_error h with h | ⟨_, htargets, -⟩
      · exact namesMissing_of_checkStates h
      · obtain ⟨-, hall⟩ := Automaton.mapM_checkState_eq_ok.mp htargets
        exact absurd (List.forall_mem_map.mp hall) hlisted

theorem addFinals_eq_error {names : List String} {error : AutomatonError}
    (h : names.foldlM (fun A q => A.addFinal ⟨q⟩) A = .error error) :
    NamesMissing A names error := by
  have hfinal (C : Automaton) (q : String) (D : Automaton) (hC : Checked A C)
      (h : C.addFinal ⟨q⟩ = .ok D) : Checked A D := by
    obtain ⟨-, rfl⟩ := Automaton.addFinal_eq_ok.mp h
    exact hC
  obtain ⟨q, hq, C, hC, h⟩ := foldlM_eq_error hfinal h ⟨rfl, rfl⟩
  rcases bind_eq_error h with h | ⟨_, -, h⟩
  · have hmissing := checkState_eq_error h
    rw [hC.1] at hmissing
    exact ⟨q, hq, hmissing⟩
  · exact nomatch h

/-- **If the symbols are fine, a state is named** that the record refers to but does not list. -/
theorem toAutomaton_eq_error {error : AutomatonError} (hR : R.SymbolsFit)
    (h : R.toAutomaton = .error error) :
    ∃ q ∈ R.references ++ R.finals, q ∉ R.states ∧ error = .unknownState ⟨q⟩ := by
  obtain ⟨symbols, halphabet, hε, hkeys⟩ := symbolsFit_iff.mp hR
  -- alphabet and states have no errors to report
  rcases bind_eq_error h with h | ⟨_, hsymbols, h⟩
  · rw [mapM_parseSymbol_eq_ok.mpr halphabet] at h
    exact nomatch h
  rw [mapM_parseSymbol_eq_ok.mpr halphabet] at hsymbols
  obtain rfl := Except.ok.inj hsymbols
  rcases bind_eq_error h with h | ⟨_, hvoid, h⟩
  · rw [Automaton.ofSymbols_eq_ok.mpr ⟨hε, rfl⟩] at h
    exact nomatch h
  obtain ⟨-, rfl⟩ := Automaton.ofSymbols_eq_ok.mp hvoid
  rw [foldl_addState_void] at h
  rcases bind_eq_error h with h | ⟨_, hrows, h⟩
  · obtain ⟨row, hrow, entry, hentry, q, hq, hmissing, he⟩ := addRows_eq_error hkeys h
    refine ⟨q, ?_, fun hs => hmissing (mem_listedStates.mpr hs), he⟩
    refine List.mem_append_left _ (List.mem_append_left _ ?_)
    exact List.mem_flatMap.mpr ⟨row, hrow, List.mem_flatMap.mpr ⟨entry, hentry, hq⟩⟩
  obtain ⟨-, rfl⟩ := addRows_eq_ok.mp hrows
  rw [← listedEdges, withEdges_eq_listed halphabet] at h
  rcases bind_eq_error h with h | ⟨_, hinitial, h⟩
  · obtain ⟨q, hq, hmissing, he⟩ := addInitial_eq_error h
    refine ⟨q, ?_, fun hs => hmissing (mem_listedStates.mpr hs), he⟩
    exact List.mem_append_left _ (List.mem_append_right _ hq)
  · obtain ⟨-, rfl⟩ := addInitial_eq_ok.mp hinitial
    obtain ⟨q, hq, hmissing, he⟩ := addFinals_eq_error h
    refine ⟨q, List.mem_append_right _ hq, fun hs => hmissing ?_, he⟩
    exact mem_states_startingAt.mpr (Or.inl (mem_listedStates.mpr hs))

/-- **Which records are converted**: those whose symbols are fine and whose states are all listed,
but the final states of a record with several initial states may also be the new state that leads
to these. If a record with fine symbols is refused, it is for a state that it does not list. -/
theorem exists_toAutomaton_eq_ok_iff (R : Record) :
    ((∃ A, R.toAutomaton = .ok A) ↔
      R.SymbolsFit ∧ (∀ q ∈ R.references, q ∈ R.states) ∧
        ∀ q ∈ R.finals, q ∈ R.states ∨ 1 < R.initial.length ∧ ⟨q⟩ = newStart R.listedStates) ∧
      (R.SymbolsFit → ∀ error, R.toAutomaton = .error error →
        ∃ q ∈ R.references ++ R.finals, q ∉ R.states ∧ error = .unknownState ⟨q⟩) := by
  refine ⟨?_, fun hR error h => toAutomaton_eq_error hR h⟩
  constructor
  · rintro ⟨A, h⟩
    obtain ⟨hfits, -⟩ := toAutomaton_eq_ok.mp h
    exact ⟨hfits.symbols, hfits.references, hfits.finals⟩
  · rintro ⟨hsymbols, hreferences, hfinals⟩
    exact ⟨R.described, toAutomaton_eq_ok.mpr ⟨⟨hsymbols, hreferences, hfinals⟩, rfl⟩⟩

/-- With one initial state there is no new one, and its name is refused like any other. -/
theorem exists_unlisted_of_one_initial :
    let R : Record := ⟨["p", "q"], ["a"], [("p", [("a", ["q"])])], ["p"], ["init"]⟩
    R.SymbolsFit ∧ R.toAutomaton = .error (.unknownState ⟨"init"⟩) ∧
      ∃ q ∈ R.references ++ R.finals, q ∉ R.states ∧
        AutomatonError.unknownState ⟨"init"⟩ = .unknownState ⟨q⟩ := by
  intro R
  have hR : R.SymbolsFit := by
    constructor
    case alphabet => exact fun text ht => ⟨'a', List.mem_singleton.mp ht, by decide⟩
    case keys =>
      intro row hrow entry hentry
      obtain rfl := List.mem_singleton.mp hrow
      obtain rfl := List.mem_singleton.mp hentry
      exact ⟨'a', rfl, Or.inr (by decide)⟩
  have herror : R.toAutomaton = .error (.unknownState ⟨"init"⟩) := by decide +kernel
  exact ⟨hR, herror, (exists_toAutomaton_eq_ok_iff R).2 hR _ herror⟩

/-- With two initial states the new one may be final although the record does not list it. -/
theorem exists_toAutomaton_eq_ok_of_unlisted :
    let R : Record := ⟨["p", "q"], [], [], ["p", "q"], ["init"]⟩
    (∃ A, R.toAutomaton = .ok A) ∧ "init" ∈ R.finals ∧ "init" ∉ R.states := by
  intro R
  have hfits : R.Fits := by
    constructor
    case symbols => constructor <;> simp [R]
    case references => decide
    case finals =>
      intro q hq
      obtain rfl := List.mem_singleton.mp hq
      exact Or.inr ⟨by decide, (newStart_of_not_mem (by decide)).symm⟩
  exact ⟨⟨R.described, toAutomaton_eq_ok.mpr ⟨hfits, rfl⟩⟩, by decide, by decide⟩

end RegularLanguages.Record
