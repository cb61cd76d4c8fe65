import RegularLanguages.Proofs.OrderedSet
import RegularLanguages.Proofs.Record.Conversion
import RegularLanguages.Proofs.Record.Text

/-!
# The exchange loses nothing

The record of an automaton lists exactly its states, symbols and transitions, and it fits. So it
is converted to the automaton that it lists, which is the one it was made from. The other way
round, an automaton that comes from a record with at most one initial state has a record that lists
the same, without repetitions and without entries that lead nowhere.

Everything rests on the labels: the text of a label is read as this label, unless it is the symbol
`ε`, which is in no alphabet.

Results:
* `mem_entriesOf`, `mem_rows`: what stands under the keys.
* `lists_ofAutomaton`: the transitions that the record of an automaton lists.
* `tidy_ofAutomaton`, **`toAutomaton_ofAutomaton`**, **`ofJson_toJson`**: the record of an
  automaton.
* **`agrees_ofAutomaton`**: the record of an automaton that comes from a record.
* **`exchange_loses_nothing`**: both ways.
-/

namespace RegularLanguages.Record

variable {A : Automaton} {R : Record} {p q : State} {a b : Label}

/-! ## Labels as keys -/

theorem labelOf_toText (h : a ≠ .symbol epsilonChar) : labelOf a.toText = a := by
  rw [Label.toText, labelOf_toString, Label.ofChar]
  cases a with
  | epsilon => rfl
  | symbol c => exact if_neg fun hc => h (congrArg Label.symbol hc)

theorem toText_ofChar (c : Char) : (Label.ofChar c).toText = c.toString := by
  unfold Label.ofChar
  split
  · rename_i hc
    rw [hc]
    rfl
  · rfl

/-- No transition is labelled with the symbol `ε`. -/
theorem label_ne_epsilon (hA : A.Valid) (h : ⟨p, a, q⟩ ∈ A.edges) : a ≠ .symbol epsilonChar :=
  fun ha => hA.epsilon_not_mem (hA.label_mem _ h _ ha)

/-! ## What stands under the keys -/

/-- A transition on `a` leaves `q`. -/
def Leaves (A : Automaton) (q : State) (a : Label) : Prop := ∃ p, ⟨q, a, p⟩ ∈ A.edges

/-- The names of the targets. -/
def targetNames (A : Automaton) (q : State) (a : Label) : List String :=
  (A.adjacency.targets q a).map State.name

theorem name_injective : Function.Injective State.name := fun p q h => by
  cases p
  exact congrArg State.mk h

theorem mem_targetNames {name : String} :
    name ∈ targetNames A q a ↔ ⟨q, a, ⟨name⟩⟩ ∈ A.edges := by
  have htargets (p : State) : p ∈ A.adjacency.targets q a ↔ ⟨q, a, p⟩ ∈ A.edges := by
    simp [Adjacency.targets, Automaton.mem_edgesFrom]
  rw [targetNames, List.mem_map]
  constructor
  · rintro ⟨p, hp, rfl⟩
    exact (htargets p).mp hp
  · exact fun h => ⟨⟨name⟩, (htargets _).mpr h, rfl⟩

theorem nodup_edgesFrom (A : Automaton) (q : State) : (A.edgesFrom q).Nodup := by
  refine (A.edges.nodup_toList.filter _).map_on fun e he f hf h => ?_
  obtain ⟨-, hsource⟩ := List.mem_filter.mp he
  obtain ⟨-, hsource'⟩ := List.mem_filter.mp hf
  obtain ⟨hlabel, htarget⟩ := Prod.mk.inj h
  have hsources := (of_decide_eq_true hsource).trans (of_decide_eq_true hsource').symm
  cases e
  cases f
  simp only [Edge.mk.injEq]
  exact ⟨hsources, hlabel, htarget⟩

theorem nodup_targetNames (A : Automaton) (q : State) (a : Label) :
    (targetNames A q a).Nodup := by
  refine List.Nodup.map name_injective ?_
  rw [Adjacency.targets, Automaton.edgesOf_adjacency]
  refine (nodup_edgesFrom A q).filterMap fun x y p hx hy => ?_
  obtain ⟨hxa, hxp⟩ := Option.ite_none_right_eq_some.mp hx
  obtain ⟨hya, hyp⟩ := Option.ite_none_right_eq_some.mp hy
  exact Prod.ext (hxa.trans hya.symm) (Option.some.inj (hxp.trans hyp.symm))

theorem entriesOf_eq_collect : entriesOf A.adjacency q =
    collect ((OrderedSet.ofList ((A.adjacency.edgesOf q).map (·.1))).toList.map fun a =>
      (a.toText, targetNames A q a)) := (collect_map _ _ _).symm

theorem transitions_eq_collect : (ofAutomaton A).transitions =
    collect ((OrderedSet.ofList (A.edges.toList.map (·.source))).toList.map fun q =>
      (q.name, entriesOf A.adjacency q)) := (collect_map _ _ _).symm

/-- The entries of a state are those of its labels, which are told apart by their texts. -/
theorem mem_entriesOf (hA : A.Valid) {entry : String × List String} :
    entry ∈ entriesOf A.adjacency q ↔
      ∃ a, Leaves A q a ∧ (a.toText, targetNames A q a) = entry := by
  let labels := OrderedSet.ofList ((A.adjacency.edgesOf q).map (·.1))
  have hlabel (a : Label) : a ∈ labels.toList ↔ Leaves A q a := by
    rw [OrderedSet.mem_toList, OrderedSet.mem_ofList, Automaton.edgesOf_adjacency, List.mem_map]
    constructor
    · rintro ⟨⟨a, p⟩, hp, rfl⟩
      exact ⟨p, Automaton.mem_edgesFrom.mp hp⟩
    · rintro ⟨p, hp⟩
      exact ⟨(a, p), Automaton.mem_edgesFrom.mpr hp, rfl⟩
  have hread (a : Label) (ha : a ∈ labels.toList) : labelOf a.toText = a := by
    obtain ⟨p, hp⟩ := (hlabel a).mp ha
    exact labelOf_toText (label_ne_epsilon hA hp)
  rw [entriesOf_eq_collect, mem_collect_map labels.nodup_toList]
  · simp only [hlabel]
  · intro a ha b hb h
    rw [← hread a ha, ← hread b hb, h]

theorem mem_rows {row : String × List (String × List String)} :
    row ∈ (ofAutomaton A).transitions ↔
      ∃ q, (∃ a, Leaves A q a) ∧ (q.name, entriesOf A.adjacency q) = row := by
  let sources := OrderedSet.ofList (A.edges.toList.map (·.source))
  have hsource (q : State) : q ∈ sources.toList ↔ ∃ a, Leaves A q a := by
    rw [OrderedSet.mem_toList, OrderedSet.mem_ofList, List.mem_map]
    constructor
    · rintro ⟨e, he, rfl⟩
      exact ⟨e.label, e.target, he⟩
    · rintro ⟨a, p, h⟩
      exact ⟨⟨q, a, p⟩, h, rfl⟩
  rw [transitions_eq_collect,
    mem_collect_map sources.nodup_toList fun p _ q _ h => name_injective h]
  simp only [hsource]

/-- The record of an automaton lists its transitions. -/
theorem lists_ofAutomaton (hA : A.Valid) {p key q : String} :
    (ofAutomaton A).Lists p key q ↔ ∃ a, a.toText = key ∧ ⟨⟨p⟩, a, ⟨q⟩⟩ ∈ A.edges := by
  constructor
  · rintro ⟨entries, targets, hrow, hentry, hq⟩
    obtain ⟨source, -, hrow⟩ := mem_rows.mp hrow
    obtain ⟨rfl, rfl⟩ := Prod.mk.inj hrow
    obtain ⟨a, -, hentry⟩ := (mem_entriesOf hA).mp hentry
    obtain ⟨rfl, rfl⟩ := Prod.mk.inj hentry
    exact ⟨a, rfl, mem_targetNames.mp hq⟩
  · rintro ⟨a, rfl, h⟩
    have hleaves : Leaves A ⟨p⟩ a := ⟨⟨q⟩, h⟩
    exact ⟨entriesOf A.adjacency ⟨p⟩, targetNames A ⟨p⟩ a, mem_rows.mpr ⟨⟨p⟩, ⟨a, hleaves⟩, rfl⟩,
      (mem_entriesOf hA).mpr ⟨a, hleaves, rfl⟩, mem_targetNames.mpr h⟩

/-! ## The record of an automaton -/

/-- The record of an automaton has no repetitions and no entries that lead nowhere. -/
theorem tidy_ofAutomaton (hA : A.Valid) : (ofAutomaton A).Tidy := by
  constructor
  case states => exact A.states.nodup_toList.map name_injective
  case alphabet => exact A.alphabet.nodup_toList.map fun c d h => String.singleton_inj.mp h
  case initial =>
    show (A.initial.toList.map State.name).Nodup
    cases A.initial <;> simp
  case finals => exact A.finals.nodup_toList.map name_injective
  case sources => exact transitions_eq_collect ▸ increasingKeys_collect _
  case keys =>
    intro row hrow
    obtain ⟨q, ⟨a, ha⟩, rfl⟩ := mem_rows.mp hrow
    exact ⟨List.ne_nil_of_mem ((mem_entriesOf hA).mpr ⟨a, ha, rfl⟩),
      entriesOf_eq_collect ▸ increasingKeys_collect _⟩
  case targets =>
    intro row hrow entry hentry
    obtain ⟨q, -, rfl⟩ := mem_rows.mp hrow
    obtain ⟨a, ⟨p, hp⟩, rfl⟩ := (mem_entriesOf hA).mp hentry
    exact ⟨List.ne_nil_of_mem (mem_targetNames.mpr hp), nodup_targetNames A q a⟩

theorem map_mk_map_name (states : List State) : (states.map State.name).map State.mk = states := by
  rw [List.map_map]
  exact List.map_id states

theorem mem_map_name {states : OrderedSet State} {name : String} :
    name ∈ states.toList.map State.name ↔ ⟨name⟩ ∈ states := by
  rw [List.mem_map]
  exact ⟨fun ⟨q, hq, hname⟩ => hname ▸ hq, fun h => ⟨⟨name⟩, h, rfl⟩⟩

theorem mem_initial_ofAutomaton {name : String} :
    name ∈ (ofAutomaton A).initial ↔ A.initial = some ⟨name⟩ := by
  show name ∈ A.initial.toList.map State.name ↔ _
  rw [List.mem_map]
  constructor
  · rintro ⟨q, hq, rfl⟩
    exact Option.mem_toList.mp hq
  · exact fun h => ⟨⟨name⟩, Option.mem_toList.mpr h, rfl⟩

/-- The record of an automaton fits. -/
theorem fits_ofAutomaton (hA : A.Valid) : (ofAutomaton A).Fits := by
  have hstate {q : State} (h : q ∈ A.states) : q.name ∈ (ofAutomaton A).states :=
    mem_map_name.mpr h
  constructor
  case symbols =>
    constructor
    case alphabet =>
      intro text ht
      obtain ⟨c, hc, rfl⟩ := List.mem_map.mp ht
      exact ⟨c, rfl, fun hε => hA.epsilon_not_mem (hε ▸ hc)⟩
    case keys =>
      intro row hrow entry hentry
      obtain ⟨q, -, rfl⟩ := mem_rows.mp hrow
      obtain ⟨a, ⟨p, hp⟩, rfl⟩ := (mem_entriesOf hA).mp hentry
      refine ⟨a.toChar, rfl, ?_⟩
      cases a with
      | epsilon => exact Or.inl rfl
      | symbol c => exact Or.inr (List.mem_map_of_mem (hA.label_mem _ hp c rfl))
  case references =>
    refine references_iff.mpr ⟨fun row hrow entry hentry name hname => ?_, fun name hname => ?_⟩
    · obtain ⟨q, -, rfl⟩ := mem_rows.mp hrow
      obtain ⟨a, ⟨p, hp⟩, rfl⟩ := (mem_entriesOf hA).mp hentry
      rcases List.mem_cons.mp hname with rfl | hname
      · exact hstate (hA.source_mem _ hp)
      · exact hstate (hA.target_mem _ (mem_targetNames.mp hname))
    · exact hstate (hA.initial_mem _ (mem_initial_ofAutomaton.mp hname))
  case finals => exact fun name hname => Or.inl (hstate (hA.final_mem _ (mem_map_name.mp hname)))

/-! ## Back and forth -/

theorem mem_listedEdges {p q : String} :
    ⟨⟨p⟩, a, ⟨q⟩⟩ ∈ R.listedEdges ↔ ∃ key, labelOf key = a ∧ R.Lists p key q := by
  simp only [listedEdges, entryEdges, List.mem_flatMap, List.mem_map, Edge.mk.injEq]
  constructor
  · rintro ⟨⟨source, entries⟩, hrow, ⟨key, targets⟩, hentry, target, hq, hp, rfl, htarget⟩
    obtain rfl := congrArg State.name hp
    obtain rfl := congrArg State.name htarget
    exact ⟨key, rfl, entries, targets, hrow, hentry, hq⟩
  · rintro ⟨key, rfl, entries, targets, hrow, hentry, hq⟩
    exact ⟨(p, entries), hrow, (key, targets), hentry, q, hq, rfl, rfl, rfl⟩

/-- A record with at most one initial state describes what it lists. -/
theorem described_of_length_le_one (h : R.initial.length ≤ 1) : R.described =
    { R.listed with
      initial := R.initial.head?.map State.mk
      finals := .ofList (R.finals.map State.mk) } := by
  unfold described
  match hinitial : R.initial with
  | [] => rfl
  | [q] => rfl
  | p :: q :: qs =>
    rw [hinitial] at h
    exact absurd h (by simp)

theorem length_initial_ofAutomaton (A : Automaton) : (ofAutomaton A).initial.length ≤ 1 := by
  show (A.initial.toList.map State.name).length ≤ 1
  cases A.initial <;> simp

theorem edges_described_ofAutomaton (hA : A.Valid) :
    OrderedSet.ofList (ofAutomaton A).listedEdges = A.edges := by
  refine OrderedSet.ext_mem fun ⟨⟨p⟩, a, ⟨q⟩⟩ => ?_
  rw [OrderedSet.mem_ofList, mem_listedEdges]
  constructor
  · rintro ⟨key, rfl, hlists⟩
    obtain ⟨b, rfl, hb⟩ := (lists_ofAutomaton hA).mp hlists
    rwa [labelOf_toText (label_ne_epsilon hA hb)]
  · intro h
    exact ⟨a.toText, labelOf_toText (label_ne_epsilon hA h), (lists_ofAutomaton hA).mpr ⟨a, rfl, h⟩⟩

/-- The record of an automaton describes it. -/
theorem described_ofAutomaton (hA : A.Valid) : (ofAutomaton A).described = A := by
  have hset (states : OrderedSet State) :
      OrderedSet.ofList ((states.toList.map State.name).map State.mk) = states := by
    rw [map_mk_map_name, OrderedSet.ofList_toList]
  have hinitial : (A.initial.toList.map State.name).head?.map State.mk = A.initial := by
    cases A.initial <;> rfl
  rw [described_of_length_le_one (length_initial_ofAutomaton A), listed,
    edges_described_ofAutomaton hA]
  show Automaton.mk (.ofList ((A.states.toList.map State.name).map State.mk))
    (.ofList ((A.alphabet.toList.map Char.toString).flatMap String.toList)) A.edges
    ((A.initial.toList.map State.name).head?.map State.mk)
    (.ofList ((A.finals.toList.map State.name).map State.mk)) = A
  rw [hset, hset, flatMap_toList_map, hinitial, OrderedSet.ofList_toList]

/-- **The record of an automaton is converted to this automaton.** -/
theorem toAutomaton_ofAutomaton (hA : A.Valid) : (ofAutomaton A).toAutomaton = .ok A :=
  toAutomaton_eq_ok.mpr ⟨fits_ofAutomaton hA, (described_ofAutomaton hA).symm⟩

/-- The record of an automaton is read from its text, so reading the automaton is converting the
record. -/
theorem ofJson_toJson_eq (A : Automaton) : Automaton.ofJson A.toJson =
    match (ofAutomaton A).toAutomaton with
    | .error error => .error (.notAutomaton error)
    | .ok A => .ok A := by
  have hsources : IncreasingKeys (ofAutomaton A).transitions :=
    transitions_eq_collect ▸ increasingKeys_collect _
  have hkeys : ∀ row ∈ (ofAutomaton A).transitions, IncreasingKeys row.2 := by
    intro row hrow
    obtain ⟨q, -, rfl⟩ := mem_rows.mp hrow
    exact entriesOf_eq_collect ▸ increasingKeys_collect _
  have htext : Record.ofText A.toJson = .ok (ofAutomaton A) := ofText_toText hsources hkeys
  cases hconverted : (ofAutomaton A).toAutomaton with
  | error error => simp only [Automaton.ofJson, htext, hconverted]
  | ok A => simp only [Automaton.ofJson, htext, hconverted]

/-- **So is its text.** -/
theorem ofJson_toJson (hA : A.Valid) : Automaton.ofJson A.toJson = .ok A := by
  rw [ofJson_toJson_eq, toAutomaton_ofAutomaton hA]

/-- The key of a transition is the text of its label. -/
theorem toText_labelOf {p key q : String} (hR : R.SymbolsFit) (h : R.Lists p key q) :
    (labelOf key).toText = key := by
  obtain ⟨entries, targets, hrow, hentry, -⟩ := h
  obtain ⟨c, rfl, -⟩ := hR.keys _ hrow _ hentry
  rw [labelOf_toString, toText_ofChar]

/-- **The record of an automaton that comes from a record** lists what that record lists. -/
theorem agrees_ofAutomaton (hlength : R.initial.length ≤ 1) (h : R.toAutomaton = .ok A) :
    (ofAutomaton A).Agrees R := by
  have hA : A.Valid := Automaton.toAutomaton_valid h
  obtain ⟨hfits, hdescribed⟩ := toAutomaton_eq_ok.mp h
  rw [described_of_length_le_one hlength] at hdescribed
  have hnamed {names : List String} {q : String} :
      ⟨q⟩ ∈ OrderedSet.ofList (names.map State.mk) ↔ q ∈ names := by simp
  constructor
  case states =>
    intro q
    refine mem_map_name.trans ?_
    rw [hdescribed]
    exact hnamed
  case alphabet =>
    intro text
    obtain ⟨symbols, hsymbols, -, -⟩ := symbolsFit_iff.mp hfits.symbols
    have halphabet : A.alphabet = .ofList symbols := by
      rw [hdescribed]
      show OrderedSet.ofList (R.alphabet.flatMap String.toList) = _
      rw [hsymbols, flatMap_toList_map]
    show text ∈ A.alphabet.toList.map Char.toString ↔ _
    rw [halphabet, hsymbols, List.mem_map, List.mem_map]
    simp only [OrderedSet.mem_toList, OrderedSet.mem_ofList]
  case edges =>
    intro p key q
    rw [lists_ofAutomaton hA, hdescribed]
    constructor
    · rintro ⟨a, rfl, hedge⟩
      obtain ⟨key, rfl, hlists⟩ := mem_listedEdges.mp (OrderedSet.mem_ofList.mp hedge)
      rwa [toText_labelOf hfits.symbols hlists]
    · intro hlists
      refine ⟨labelOf key, toText_labelOf hfits.symbols hlists, ?_⟩
      exact OrderedSet.mem_ofList.mpr (mem_listedEdges.mpr ⟨key, rfl, hlists⟩)
  case initial =>
    intro q
    rw [mem_initial_ofAutomaton, hdescribed]
    show R.initial.head?.map State.mk = some ⟨q⟩ ↔ _
    match R.initial, hlength with
    | [], _ => simp
    | [p], _ => simp [eq_comm]
  case finals =>
    intro q
    refine mem_map_name.trans ?_
    rw [hdescribed]
    exact hnamed

/-- **The exchange loses nothing**: a valid automaton is read back from its record and from the
text of it. A record with at most one initial state comes back with the same states, symbols,
transitions, initial and final states, without repetitions and without entries that lead nowhere. -/
theorem exchange_loses_nothing :
    (∀ A : Automaton, A.Valid →
      (ofAutomaton A).toAutomaton = .ok A ∧ Automaton.ofJson A.toJson = .ok A) ∧
    ∀ (R : Record) (A : Automaton), R.initial.length ≤ 1 → R.toAutomaton = .ok A →
      (ofAutomaton A).Tidy ∧ (ofAutomaton A).Agrees R := by
  refine ⟨fun A hA => ⟨toAutomaton_ofAutomaton hA, ofJson_toJson hA⟩, fun R A hlength h => ?_⟩
  exact ⟨tidy_ofAutomaton (Automaton.toAutomaton_valid h), agrees_ofAutomaton hlength h⟩

/-- Names and symbols may be any characters, or none. The record names states twice, has a source
and a key that lead nowhere, and its keys are in no order. -/
theorem exchange_of_untidy :
    let A : Automaton :=
      { states := .ofList [⟨""⟩, ⟨"\""⟩, ⟨"\x01\n\\"⟩, ⟨"𝄞"⟩]
        alphabet := .ofList ['"', '\n', '😀']
        edges := .ofList [⟨⟨""⟩, .epsilon, ⟨"\""⟩⟩, ⟨⟨""⟩, .symbol '"', ⟨"𝄞"⟩⟩,
          ⟨⟨"𝄞"⟩, .symbol '😀', ⟨"\x01\n\\"⟩⟩]
        initial := some ⟨""⟩
        finals := .ofList [⟨"\x01\n\\"⟩] }
    let R : Record :=
      { states := ["𝄞", "", "\x01\n\\", "𝄞", "\""]
        alphabet := ["😀", "\"", "\n", "\""]
        transitions := [("𝄞", [("\n", []), ("😀", ["\x01\n\\"])]), ("elsewhere", []),
          ("", [("ε", ["\"", "\""]), ("\"", ["𝄞"])])]
        initial := [""]
        finals := ["\x01\n\\", "\x01\n\\"] }
    A.Valid ∧ (ofAutomaton A).toAutomaton = .ok A ∧ Automaton.ofJson A.toJson = .ok A ∧
      R.initial.length ≤ 1 ∧ R.toAutomaton = .ok A ∧
        (ofAutomaton A).Tidy ∧ (ofAutomaton A).Agrees R := by
  intro A R
  have hR : R.toAutomaton = .ok A := by decide +kernel
  have hA : A.Valid := Automaton.toAutomaton_valid hR
  have hlength : R.initial.length ≤ 1 := by decide
  exact ⟨hA, (exchange_loses_nothing.1 A hA).1, (exchange_loses_nothing.1 A hA).2, hlength, hR,
    exchange_loses_nothing.2 R A hlength hR⟩

end RegularLanguages.Record
