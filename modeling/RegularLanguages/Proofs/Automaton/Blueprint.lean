import RegularLanguages.Proofs.Record.Conversion

/-!
# Declarations count as a set

A blueprint takes note of declarations in the order in which they come and is assembled by checked
edits at the end. By then every state that an edit mentions is there and every declared symbol is
in the alphabet. So only `ε` as a symbol and labels that nobody declares are refused, and what comes
out holds exactly what has been declared: neither the order of the declarations matters nor how
often one of them is made. Of several initial states the last one counts, and an earlier one is not
even a state unless something else mentions it.

Results:
* `Holds.declare`, `holds_foldl`: a blueprint holds what has been declared, one call and all calls.
* `build_eq_ok`: which blueprints are assembled, and to which automaton.
* `assemble_eq_ok`: the same by the declarations.
* **`assemble_iff_and_describes`**: and the order does not matter.
-/

namespace RegularLanguages

namespace Automaton

variable {A B : Automaton} {e : Edge}

theorem addEdge_eq_ok :
    A.addEdge e = .ok B ↔ ((∀ c, e.label = .symbol c → c ∈ A.alphabet) ∧
      e.source ∈ A.states ∧ e.target ∈ A.states) ∧ B = Record.withEdges A [e] := by
  unfold addEdge
  rw [addTransition_eq_ok, List.forall_mem_singleton, and_assoc, and_assoc]
  rfl

/-- Transitions are added one by one if their labels and their ends pass. -/
theorem foldlM_addEdge_eq_ok {es : List Edge} :
    es.foldlM addEdge A = .ok B ↔
      (∀ e ∈ es, (∀ c, e.label = .symbol c → c ∈ A.alphabet) ∧
        e.source ∈ A.states ∧ e.target ∈ A.states) ∧ B = Record.withEdges A es := by
  have hfold : es.foldl (fun A e => Record.withEdges A [e]) A = Record.withEdges A es := by
    rw [Record.foldl_withEdges, List.flatMap_singleton']
  rw [← hfold]
  refine foldlM_eq_ok_iff (P := Record.Checked A) (fun C e D hC => ?_) ?_ ⟨rfl, rfl⟩
  case refine_2 => exact fun C e hC => hC
  rw [addEdge_eq_ok, hC.1, hC.2]

theorem foldlM_setInitial_eq_ok {i : Option State} (hA : A.initial = none) :
    i.toList.foldlM setInitial A = .ok B ↔
      (∀ q, i = some q → q ∈ A.states) ∧ B = { A with initial := i } := by
  cases i with
  | none =>
    have hsame : { A with initial := none } = A := by rw [← hA]
    rw [Option.toList_none, List.foldlM_nil, hsame]
    exact ⟨fun h => ⟨fun q hq => (nomatch hq), (Except.ok.inj h).symm⟩, fun h => h.2 ▸ rfl⟩
  | some q =>
    rw [Option.toList_some, List.foldlM_cons]
    simp only [List.foldlM_nil, bind_pure, setInitial_eq_ok, Option.some.injEq, forall_eq']

end Automaton

namespace Blueprint

variable {A B : Automaton} {b : Blueprint} {d : Declaration} {ds ds' : List Declaration}

/-! ## What is declared -/

/-- The state is declared by itself. -/
def DeclaresState (ds : List Declaration) (q : State) : Prop :=
  ∃ qs, .states qs ∈ ds ∧ q ∈ qs

/-- The symbol is declared. -/
def DeclaresSymbol (ds : List Declaration) (c : Char) : Prop :=
  ∃ symbols, .alphabet symbols ∈ ds ∧ c ∈ symbols

/-- The transition is declared, in full or as a pair of states. -/
def DeclaresEdge (ds : List Declaration) (e : Edge) : Prop :=
  (∃ es, .transitions es ∈ ds ∧ e ∈ es) ∨
    ∃ pairs, .epsilonTransitions pairs ∈ ds ∧ (e.source, e.target) ∈ pairs ∧ e.label = .epsilon

/-- The state is declared final. -/
def DeclaresFinal (ds : List Declaration) (q : State) : Prop :=
  ∃ qs, .finals qs ∈ ds ∧ q ∈ qs

/-- The initial state that a declaration names. -/
def Declaration.initial? : Declaration → Option State
  | .initial q => some q
  | _ => none

/-- The initial state that is declared last. -/
def lastInitial (ds : List Declaration) : Option State :=
  (ds.filterMap Declaration.initial?).getLast?

/-- The automaton has exactly what is declared, and the states that transitions, final states and
the last initial state mention. -/
structure Describes (ds : List Declaration) (A : Automaton) : Prop where
  states : ∀ q, q ∈ A.states ↔ DeclaresState ds q ∨
    (∃ e, DeclaresEdge ds e ∧ (q = e.source ∨ q = e.target)) ∨
    lastInitial ds = some q ∨ DeclaresFinal ds q
  alphabet : ∀ c, c ∈ A.alphabet ↔ DeclaresSymbol ds c
  edges : ∀ e, e ∈ A.edges ↔ DeclaresEdge ds e
  initial : A.initial = lastInitial ds
  finals : ∀ q, q ∈ A.finals ↔ DeclaresFinal ds q

/-- Declarations describe one automaton at most. -/
theorem Describes.unique (hA : Describes ds A) (hB : Describes ds B) : A = B :=
  Automaton.ext_mem (fun q => (hA.states q).trans (hB.states q).symm)
    (OrderedSet.ext_mem fun c => (hA.alphabet c).trans (hB.alphabet c).symm)
    (fun e => (hA.edges e).trans (hB.edges e).symm) (hA.initial.trans hB.initial.symm)
    fun q => (hA.finals q).trans (hB.finals q).symm

/-- `ε` is not declared as a symbol, and the symbol of every transition is declared. -/
structure Labelled (ds : List Declaration) : Prop where
  epsilon : ¬ DeclaresSymbol ds epsilonChar
  label : ∀ e, DeclaresEdge ds e → ∀ c, e.label = .symbol c → DeclaresSymbol ds c

/-- Declarations that are made in another order or more often declare the same. -/
theorem declares_congr (h : ∀ d, d ∈ ds' ↔ d ∈ ds) :
    DeclaresState ds' = DeclaresState ds ∧ DeclaresSymbol ds' = DeclaresSymbol ds ∧
      DeclaresEdge ds' = DeclaresEdge ds ∧ DeclaresFinal ds' = DeclaresFinal ds := by
  unfold DeclaresState DeclaresSymbol DeclaresEdge DeclaresFinal
  simp only [h, and_self]

theorem Labelled.congr (h : ∀ d, d ∈ ds' ↔ d ∈ ds) (hds : Labelled ds) : Labelled ds' := by
  obtain ⟨-, hsymbol, hedge, -⟩ := declares_congr h
  refine ⟨?_, ?_⟩
  · rw [hsymbol]
    exact hds.epsilon
  · rw [hsymbol, hedge]
    exact hds.label

theorem Describes.congr (h : ∀ d, d ∈ ds' ↔ d ∈ ds) (hi : lastInitial ds' = lastInitial ds)
    (hA : Describes ds A) : Describes ds' A := by
  obtain ⟨hstate, hsymbol, hedge, hfinal⟩ := declares_congr h
  constructor
  case states =>
    rw [hstate, hedge, hfinal, hi]
    exact hA.states
  case alphabet =>
    rw [hsymbol]
    exact hA.alphabet
  case edges =>
    rw [hedge]
    exact hA.edges
  case initial => exact hA.initial.trans hi.symm
  case finals =>
    rw [hfinal]
    exact hA.finals

/-! ## What a blueprint holds -/

/-- The blueprint holds what is declared. -/
structure Holds (b : Blueprint) (ds : List Declaration) : Prop where
  states : ∀ q, q ∈ b.states ↔ DeclaresState ds q
  symbols : ∀ c, c ∈ b.symbols ↔ DeclaresSymbol ds c
  edges : ∀ e, e ∈ b.edges ↔ DeclaresEdge ds e
  initial : b.initial = lastInitial ds
  finals : ∀ q, q ∈ b.finals ↔ DeclaresFinal ds q

theorem holds_empty : empty.Holds [] := by
  constructor <;> simp [empty, DeclaresState, DeclaresSymbol, DeclaresEdge, DeclaresFinal,
    lastInitial]

theorem lastInitial_concat (ds : List Declaration) (d : Declaration) :
    lastInitial (ds ++ [d]) = d.initial?.or (lastInitial ds) := by
  unfold lastInitial
  rw [List.filterMap_append]
  cases hd : d.initial? with
  | none => simp [hd]
  | some q => simp [hd]

/-- **One call** adds what it declares to what the blueprint holds. -/
theorem Holds.declare (h : b.Holds ds) (d : Declaration) : (b.declare d).Holds (ds ++ [d]) := by
  have hepsilon (pairs : List (State × State)) (e : Edge) :
      e ∈ pairs.map (fun p => (⟨p.1, .epsilon, p.2⟩ : Edge)) ↔
        (e.source, e.target) ∈ pairs ∧ e.label = .epsilon := by
    obtain ⟨p, a, q⟩ := e
    simp only [List.mem_map, Prod.exists, Edge.mk.injEq]
    constructor
    · rintro ⟨p, q, hpq, rfl, rfl, rfl⟩
      exact ⟨hpq, rfl⟩
    · rintro ⟨hpq, rfl⟩
      exact ⟨p, q, hpq, rfl, rfl, rfl⟩
  constructor
  case states =>
    intro q
    cases d <;> simp [Blueprint.declare, h.states q, DeclaresState, or_and_right, exists_or]
  case symbols =>
    intro c
    cases d <;> simp [Blueprint.declare, h.symbols c, DeclaresSymbol, or_and_right, exists_or]
  case edges =>
    intro e
    cases d with
    | transitions es =>
      simp [Blueprint.declare, h.edges e, DeclaresEdge, or_and_right, exists_or, or_right_comm]
    | _ =>
      simp [Blueprint.declare, h.edges e, DeclaresEdge, or_and_right, exists_or, hepsilon,
        or_assoc]
  case initial =>
    rw [lastInitial_concat, ← h.initial]
    cases d <;> simp [Blueprint.declare, Declaration.initial?]
  case finals =>
    intro q
    cases d <;> simp [Blueprint.declare, h.finals q, DeclaresFinal, or_and_right, exists_or]

/-- **All calls** leave a blueprint that holds what they declare. -/
theorem holds_foldl : ∀ {ds ds' : List Declaration} {b : Blueprint}, b.Holds ds →
    (ds'.foldl declare b).Holds (ds ++ ds')
  | ds, [], b, h => by
    rw [List.append_nil]
    exact h
  | ds, d :: ds', b, h => by
    rw [List.append_cons]
    exact holds_foldl (h.declare d)

/-! ## Assembling -/

/-- The automaton of a blueprint, apart from the edits that put it together. -/
def described (b : Blueprint) : Automaton :=
  ⟨.ofList b.mentioned, .ofList b.symbols, .ofList b.edges, b.initial, .ofList b.finals⟩

theorem mem_mentioned {q : State} : q ∈ b.mentioned ↔ q ∈ b.states ∨
    (∃ e ∈ b.edges, q = e.source ∨ q = e.target) ∨ b.initial = some q ∨ q ∈ b.finals := by
  simp [mentioned]

theorem Holds.described (h : b.Holds ds) : Describes ds b.described := by
  constructor
  case states =>
    intro q
    simp only [Blueprint.described, OrderedSet.mem_ofList, mem_mentioned, h.states, h.edges,
      h.initial, h.finals]
  case alphabet => exact fun c => OrderedSet.mem_ofList.trans (h.symbols c)
  case edges => exact fun e => OrderedSet.mem_ofList.trans (h.edges e)
  case initial => exact h.initial
  case finals => exact fun q => OrderedSet.mem_ofList.trans (h.finals q)

/-- **Which blueprints are assembled**: the states that are checked are all mentioned, so only
symbols are ever refused. -/
theorem build_eq_ok : b.build = .ok A ↔ epsilonChar ∉ b.symbols ∧
    (∀ e ∈ b.edges, ∀ c, e.label = .symbol c → c ∈ b.symbols) ∧ A = b.described := by
  have hedge (e : Edge) (he : e ∈ b.edges) : e.source ∈ b.mentioned ∧ e.target ∈ b.mentioned :=
    ⟨mem_mentioned.mpr (.inr (.inl ⟨e, he, .inl rfl⟩)),
      mem_mentioned.mpr (.inr (.inl ⟨e, he, .inr rfl⟩))⟩
  have hinitial (q : State) (hq : b.initial = some q) : q ∈ b.mentioned :=
    mem_mentioned.mpr (.inr (.inr (.inl hq)))
  have hfinal (q : State) (hq : q ∈ b.finals) : q ∈ b.mentioned :=
    mem_mentioned.mpr (.inr (.inr (.inr hq)))
  have hdescribed : b.described = ⟨.ofList b.mentioned ∪ ∅, .ofList b.symbols,
      .ofList b.edges ∪ ∅, b.initial, .ofList b.finals ∪ ∅⟩ := by
    simp only [OrderedSet.union_empty]
    rfl
  rw [hdescribed]
  unfold build
  simp only [bind_eq_ok_iff, Automaton.ofSymbols_eq_ok, Automaton.foldl_addState,
    Automaton.foldlM_addEdge_eq_ok, Automaton.foldlM_addFinal_eq_ok]
  constructor
  · rintro ⟨_, ⟨hε, rfl⟩, _, ⟨hedges, rfl⟩, _, hset, -, rfl⟩
    obtain ⟨-, rfl⟩ := (Automaton.foldlM_setInitial_eq_ok rfl).mp hset
    exact ⟨hε, fun e he c hc => OrderedSet.mem_ofList.mp ((hedges e he).1 c hc), rfl⟩
  · rintro ⟨hε, hlabels, rfl⟩
    have hmem {q : State} (hq : q ∈ b.mentioned) :
        q ∈ OrderedSet.ofList b.mentioned ∪ (∅ : OrderedSet State) :=
      OrderedSet.mem_union.mpr (.inl (OrderedSet.mem_ofList.mpr hq))
    refine ⟨_, ⟨hε, rfl⟩, _, ⟨fun e he => ⟨fun c hc => ?_, ?_, ?_⟩, rfl⟩, _,
      (Automaton.foldlM_setInitial_eq_ok rfl).mpr ⟨fun q hq => hmem (hinitial q hq), rfl⟩,
      fun q hq => hmem (hfinal q hq), rfl⟩
    · exact OrderedSet.mem_ofList.mpr (hlabels e he c hc)
    · exact hmem (hedge e he).1
    · exact hmem (hedge e he).2

/-- Declarations are assembled if their labels are fine, to the automaton that they describe. -/
theorem assemble_eq_ok : assemble ds = .ok A ↔ Labelled ds ∧ Describes ds A := by
  have hholds : (ds.foldl declare empty).Holds ds := holds_foldl holds_empty
  unfold assemble
  rw [build_eq_ok]
  constructor
  · rintro ⟨hε, hlabels, rfl⟩
    refine ⟨⟨fun h => hε ((hholds.symbols _).mpr h), fun e he c hc => ?_⟩, hholds.described⟩
    exact (hholds.symbols c).mp (hlabels e ((hholds.edges e).mpr he) c hc)
  · rintro ⟨hlabelled, hA⟩
    refine ⟨fun h => hlabelled.epsilon ((hholds.symbols _).mp h), fun e he c hc => ?_,
      hA.unique hholds.described⟩
    exact (hholds.symbols c).mpr (hlabelled.label e ((hholds.edges e).mp he) c hc)

/-- **What is assembled from declarations.** They are refused exactly if `ε` is declared as a symbol
or a transition has a label that is neither `ε` nor declared, before or after it. Otherwise the
automaton has exactly what is declared, and the states that are mentioned. Declarations made in
another order or more often give an equal automaton, if the last initial state stays the same. -/
theorem assemble_iff_and_describes (ds : List Declaration) :
    ((∃ A, assemble ds = .ok A) ↔ ¬ DeclaresSymbol ds epsilonChar ∧ ∀ e, DeclaresEdge ds e →
      e.label = .epsilon ∨ ∃ c, e.label = .symbol c ∧ DeclaresSymbol ds c) ∧
    (∀ A, assemble ds = .ok A → Describes ds A) ∧
    ∀ ds' A, (∀ d, d ∈ ds' ↔ d ∈ ds) → lastInitial ds' = lastInitial ds →
      (assemble ds' = .ok A ↔ assemble ds = .ok A) := by
  refine ⟨?_, fun A h => (assemble_eq_ok.mp h).2, fun ds' A h hi => ?_⟩
  · have hlabel (e : Edge) : (∀ c, e.label = .symbol c → DeclaresSymbol ds c) ↔
        e.label = .epsilon ∨ ∃ c, e.label = .symbol c ∧ DeclaresSymbol ds c := by
      cases e.label <;> simp
    constructor
    · rintro ⟨A, h⟩
      obtain ⟨hlabelled, -⟩ := assemble_eq_ok.mp h
      exact ⟨hlabelled.epsilon, fun e he => (hlabel e).mp (hlabelled.label e he)⟩
    · rintro ⟨hε, hlabels⟩
      exact ⟨_, assemble_eq_ok.mpr ⟨⟨hε, fun e he => (hlabel e).mpr (hlabels e he)⟩,
        (holds_foldl holds_empty).described⟩⟩
  · rw [assemble_eq_ok, assemble_eq_ok]
    constructor
    · rintro ⟨hlabelled, hA⟩
      exact ⟨hlabelled.congr fun d => (h d).symm, hA.congr (fun d => (h d).symm) hi.symm⟩
    · rintro ⟨hlabelled, hA⟩
      exact ⟨hlabelled.congr h, hA.congr h hi⟩

/-- The symbols come after the transition that needs them, `p` is given up as the initial state for
`q`, and `r` is declared twice in the second order of the calls. -/
theorem assemble_reordered :
    let ds : List Declaration := [.transitions [⟨⟨"p"⟩, .symbol 'a', ⟨"q"⟩⟩], .initial ⟨"p"⟩,
      .epsilonTransitions [(⟨"q"⟩, ⟨"p"⟩)], .initial ⟨"q"⟩, .alphabet ['a', 'b'], .states [⟨"r"⟩],
      .finals [⟨"s"⟩]]
    let ds' : List Declaration := [.finals [⟨"s"⟩], .states [⟨"r"⟩], .alphabet ['a', 'b'],
      .initial ⟨"p"⟩, .initial ⟨"q"⟩, .epsilonTransitions [(⟨"q"⟩, ⟨"p"⟩)],
      .transitions [⟨⟨"p"⟩, .symbol 'a', ⟨"q"⟩⟩], .states [⟨"r"⟩]]
    let A : Automaton := ⟨.ofList [⟨"p"⟩, ⟨"q"⟩, ⟨"r"⟩, ⟨"s"⟩], .ofList ['a', 'b'],
      .ofList [⟨⟨"p"⟩, .symbol 'a', ⟨"q"⟩⟩, ⟨⟨"q"⟩, .epsilon, ⟨"p"⟩⟩], some ⟨"q"⟩, .ofList [⟨"s"⟩]⟩
    (∀ d, d ∈ ds' ↔ d ∈ ds) ∧ lastInitial ds' = lastInitial ds ∧ assemble ds = .ok A ∧
      Describes ds A ∧ assemble ds' = .ok A := by
  intro ds ds' A
  have hmem (d : Declaration) : d ∈ ds' ↔ d ∈ ds := by
    simp only [ds, ds', List.mem_cons, List.not_mem_nil]
    tauto
  have hA : assemble ds = .ok A := by decide +kernel
  obtain ⟨-, hdescribes, hreordered⟩ := assemble_iff_and_describes ds
  exact ⟨hmem, rfl, hA, hdescribes A hA, (hreordered ds' A hmem rfl).mpr hA⟩

end Blueprint

end RegularLanguages
