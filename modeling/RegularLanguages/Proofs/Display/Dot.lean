import RegularLanguages.Proofs.Automaton.Rational
import RegularLanguages.Proofs.Display.DotLines
import RegularLanguages.Proofs.Record.SeveralInitial

/-!
# When a drawing is faithful

A drawing is faithful if the graph that is read of it shows the automaton and nothing else
(`Depicts`). Names of states are escaped, so they are read back and no two of them become one. The
mark at the start is a node as well, which is named `init` like a state may be. Labels are not
escaped. So the graph shows the automaton exactly if no state is named `init` and all labels can be
read back.

In a drawing that goes wrong, the first edge that does is enough: its label is a different one
whatever is read behind it.

Results:
* `readable_labelsBetween`: the labels of an edge that can be read back, as transitions.
* **`depicts_picture`**: the picture shows the automaton.
* `Faithful.readable`, `Faithful.no_init`: what every faithful drawing needs.
* `not_faithful_union`, `not_faithful_star`, `not_faithful_of_several_initial`: states that are
  named by the library.
* **`faithful_iff_drawable_and_not_faithful`**.
-/

namespace RegularLanguages.Dot

variable {A B : Automaton} {p q : State} {n : String} {ss : List Statement}

/-- The graph shows the automaton and nothing else: one node for every state, one more that marks
the start, and one edge for every pair of states that are joined, with exactly their labels. -/
structure Depicts (ss : List Statement) (marker : String) (A : Automaton) : Prop where
  mem_nodes : ∀ n, n ∈ nodes ss ↔ n = marker ∨ ⟨n⟩ ∈ A.states
  marker_new : ⟨marker⟩ ∉ A.states
  size_nodes : (nodes ss).size = A.size + 1
  marker_attributes : attributesOf ss marker = [("label", ""), ("shape", "none")]
  state_attributes : ∀ q ∈ A.states,
    attributesOf ss q.name = [("shape", if A.isFinal q then "doublecircle" else "circle")]
  marker_edges : ∀ q ∈ A.states,
    edgesBetween ss marker q.name = if A.initial = some q then [[]] else []
  no_edge_to_marker : ∀ n, edgesBetween ss n marker = []
  state_edges : ∀ p ∈ A.states, ∀ q ∈ A.states, edgesBetween ss p.name q.name =
    if (labelsBetween A p q).isEmpty then []
    else [[("label", labelText (labelsBetween A p q).toList)]]

/-- The drawing of an automaton is well formed and shows the automaton. -/
def Faithful (A : Automaton) : Prop :=
  ∃ ss marker, read (ofAutomaton A) = some ss ∧ Depicts ss marker A

/-- No state is mistaken for the mark at the start, and all labels can be read back: there is no
quote, and a backslash is followed by a further label of the same edge. -/
structure Drawable (A : Automaton) : Prop where
  no_init : ⟨"init"⟩ ∉ A.states
  no_quote : ∀ p q, ⟨p, .symbol '"', q⟩ ∉ A.edges
  backslash_followed : ∀ p q, ⟨p, .symbol '\\', q⟩ ∈ A.edges →
    ∃ c, '\\' < c ∧ ⟨p, .symbol c, q⟩ ∈ A.edges

/-! ## Labels -/

/-- Only symbols come behind a symbol. -/
theorem compare_symbol_eq_lt {c : Char} {a : Label} :
    compare (.symbol c) a = .lt ↔ ∃ d, c < d ∧ a = .symbol d := by
  cases a with
  | epsilon =>
    have hcompare : compare (Label.symbol c) .epsilon = compare (c.toNat + 1) 0 := rfl
    rw [hcompare, Nat.compare_eq_lt]
    simp
  | symbol d =>
    have hcompare : compare (Label.symbol c) (.symbol d) =
        compare (c.toNat + 1) (d.toNat + 1) := rfl
    rw [hcompare, Nat.compare_eq_lt, Nat.add_lt_add_iff_right]
    simp only [Label.symbol.injEq, exists_eq_right']
    rfl

/-- The condition looks at the states and transitions only, so it can be decided. -/
theorem drawable_iff : Drawable A ↔ ⟨"init"⟩ ∉ A.states ∧
    (∀ e ∈ A.edges.toList, e.label ≠ .symbol '"') ∧
      ∀ e ∈ A.edges.toList, e.label = .symbol '\\' → ∃ f ∈ A.edges.toList,
        f.source = e.source ∧ f.target = e.target ∧ compare (.symbol '\\') f.label = .lt := by
  constructor
  · intro h
    refine ⟨h.no_init, fun ⟨p, a, q⟩ he ha => ?_, fun ⟨p, a, q⟩ he ha => ?_⟩
    · cases ha
      exact h.no_quote p q he
    · cases ha
      obtain ⟨c, hc, hf⟩ := h.backslash_followed p q he
      exact ⟨_, hf, rfl, rfl, compare_symbol_eq_lt.mpr ⟨c, hc, rfl⟩⟩
  · rintro ⟨hinit, hquote, hbackslash⟩
    refine ⟨hinit, fun p q he => hquote _ he rfl, fun p q he => ?_⟩
    obtain ⟨⟨p', a, q'⟩, hf, rfl, rfl, hlt⟩ := hbackslash _ he rfl
    obtain ⟨c, hc, rfl⟩ := compare_symbol_eq_lt.mp hlt
    exact ⟨c, hc, hf⟩

instance : Decidable (Drawable A) := decidable_of_iff' _ drawable_iff

theorem readable_labelsBetween : Readable (labelsBetween A p q).toList ↔
    ⟨p, .symbol '"', q⟩ ∉ A.edges ∧
      (⟨p, .symbol '\\', q⟩ ∈ A.edges → ∃ c, '\\' < c ∧ ⟨p, .symbol c, q⟩ ∈ A.edges) := by
  rw [Readable, OrderedSet.mem_toList, mem_labelsBetween, ne_eq,
    OrderedSet.getLast?_toList_eq_some_iff, mem_labelsBetween]
  refine and_congr_right fun _ => ?_
  simp only [not_and, not_forall, not_not, mem_labelsBetween, exists_prop]
  refine imp_congr_right fun _ => ⟨?_, ?_⟩
  · rintro ⟨a, ha, hlt⟩
    obtain ⟨c, hc, rfl⟩ := compare_symbol_eq_lt.mp hlt
    exact ⟨c, hc, ha⟩
  · rintro ⟨c, hc, h⟩
    exact ⟨.symbol c, h, compare_symbol_eq_lt.mpr ⟨c, hc, rfl⟩⟩

/-! ## What the picture shows -/

section Selection

variable {α β : Type} [DecidableEq α] {f : α → List β} {x : α} {xs : List α}

theorem flatMap_ite_of_not_mem (hx : x ∉ xs) :
    (xs.flatMap fun y => if y = x then f y else []) = [] :=
  List.flatMap_eq_nil_iff.mpr fun y hy => if_neg fun h : y = x => hx (h ▸ hy)

/-- Of a list without repetitions one entry is left. -/
theorem flatMap_ite_of_mem (h : xs.Nodup) (hx : x ∈ xs) :
    (xs.flatMap fun y => if y = x then f y else []) = f x := by
  obtain ⟨ys, zs, rfl⟩ := List.append_of_mem hx
  obtain ⟨hnot, -⟩ := List.nodup_cons.mp (List.nodup_middle.mp h)
  rw [List.mem_append, not_or] at hnot
  rw [List.flatMap_append, List.flatMap_cons, if_pos rfl, flatMap_ite_of_not_mem hnot.1,
    flatMap_ite_of_not_mem hnot.2, List.nil_append, List.append_nil]

end Selection

theorem name_eq_iff : p.name = q.name ↔ p = q :=
  ⟨fun h => by cases p; cases q; exact congrArg State.mk h, congrArg State.name⟩

@[simp] theorem attributesOf_append (ss ts : List Statement) (n : String) :
    attributesOf (ss ++ ts) n = attributesOf ss n ++ attributesOf ts n := List.flatMap_append

@[simp] theorem edgesBetween_append (ss ts : List Statement) (m n : String) :
    edgesBetween (ss ++ ts) m n = edgesBetween ss m n ++ edgesBetween ts m n := List.flatMap_append

theorem mem_edgesBetween {m : String} {as : List Attribute} :
    as ∈ edgesBetween ss m n ↔ .edge m n as ∈ ss := by
  simp only [edgesBetween, List.mem_flatMap]
  constructor
  · rintro ⟨s, hs, has⟩
    cases s with
    | edge p q as' =>
      simp only at has
      split at has
      next he =>
        obtain ⟨rfl, rfl⟩ := he
        rwa [List.mem_singleton.mp has]
      next => simp at has
    | _ => simp at has
  · exact fun h => ⟨_, h, by simp⟩

/-- The nodes of the states. -/
theorem attributesOf_nodes (A : Automaton) (q : State) :
    attributesOf (A.states.toList.map (nodeStatement A)) q.name = if q ∈ A.states then
      [("shape", if A.isFinal q then "doublecircle" else "circle")] else [] := by
  simp only [attributesOf, List.flatMap_map, nodeStatement, name_eq_iff]
  split
  next hq => exact flatMap_ite_of_mem A.states.nodup_toList hq
  next hq => exact flatMap_ite_of_not_mem hq

theorem edgesBetween_nodes (qs : List State) (m n : String) :
    edgesBetween (qs.map (nodeStatement A)) m n = [] := by
  simp [edgesBetween, List.flatMap_map, nodeStatement]

/-- The edge to the initial state. -/
theorem edgesBetween_initial (i : Option State) (n : String) :
    edgesBetween (i.toList.map fun q => .edge "init" q.name []) n q.name =
      if n = "init" ∧ i = some q then [[]] else [] := by
  cases i with
  | none => simp [edgesBetween]
  | some i => simp [edgesBetween, name_eq_iff, eq_comm (a := n)]

theorem attributesOf_initial (i : Option State) (n : String) :
    attributesOf (i.toList.map fun q => .edge "init" q.name []) n = [] := by
  simp [attributesOf, List.flatMap_map]

/-- The edges of the transitions. -/
theorem edgesBetween_arrows (A : Automaton) (p q : State) :
    edgesBetween ((joined A).map (arrow A)) p.name q.name = if (p, q) ∈ joined A then
      [[("label", labelText (labelsBetween A p q).toList)]] else [] := by
  have heq (pq : State × State) : (pq.1 = p ∧ pq.2 = q) = (pq = (p, q)) := by
    rw [Prod.ext_iff]
  simp only [edgesBetween, List.flatMap_map, arrow, edgeStatement, name_eq_iff, heq]
  split
  next h => exact flatMap_ite_of_mem (nodup_joined A) h
  next h => exact flatMap_ite_of_not_mem h

theorem attributesOf_arrows (pqs : List (State × State)) (n : String) :
    attributesOf (pqs.map (arrow A)) n = [] := by
  simp [attributesOf, List.flatMap_map, arrow, edgeStatement]

theorem mem_nodes_picture (hA : A.Valid) :
    n ∈ nodes (picture A) ↔ n = "init" ∨ ⟨n⟩ ∈ A.states := by
  have hnodes : n ∈ nodes (picture A) ↔ n = "init" ∨ (∃ q ∈ A.states, n = q.name) ∨
      (∃ q, A.initial = some q ∧ (n = "init" ∨ n = q.name)) ∨
      ∃ pq ∈ joined A, n = pq.1.name ∨ n = pq.2.name := by
    simp [nodes, picture, front, Statement.names, nodeStatement, arrow, edgeStatement,
      OrderedSet.mem_toList]
  rw [hnodes]
  constructor
  · rintro (h | ⟨q, hq, rfl⟩ | ⟨q, hq, h | rfl⟩ | ⟨⟨p, q⟩, hpq, h⟩)
    · exact Or.inl h
    · exact Or.inr hq
    · exact Or.inl h
    · exact Or.inr (hA.initial_mem q hq)
    · obtain ⟨a, ha⟩ := (mem_joined hA).mp hpq
      rcases h with rfl | rfl
      · exact Or.inr (hA.source_mem _ ha)
      · exact Or.inr (hA.target_mem _ ha)
  · rintro (h | h)
    · exact Or.inl h
    · exact Or.inr (Or.inl ⟨⟨n⟩, h, rfl⟩)

/-- A set of names is as large as the set of states with these names and one more. -/
theorem size_of_names {names : OrderedSet String} {marker : String} (hnew : ⟨marker⟩ ∉ A.states)
    (h : ∀ n, n ∈ names ↔ n = marker ∨ ⟨n⟩ ∈ A.states) : names.size = A.size + 1 := by
  have hnodup : (marker :: A.states.toList.map State.name).Nodup := by
    refine List.nodup_cons.mpr ⟨fun hmem => ?_,
      A.states.nodup_toList.map fun p q => name_eq_iff.mp⟩
    obtain ⟨q, hq, rfl⟩ := List.mem_map.mp hmem
    exact hnew hq
  rw [OrderedSet.size_eq_length hnodup fun n => ?_]
  · simp [Automaton.size, OrderedSet.size]
  · rw [h, List.mem_cons, List.mem_map]
    refine or_congr_right ⟨fun hn => ⟨_, hn, rfl⟩, ?_⟩
    rintro ⟨q, hq, rfl⟩
    exact hq

theorem attributesOf_picture (A : Automaton) (q : State) : attributesOf (picture A) q.name =
    (if q.name = "init" then [("label", ""), ("shape", "none")] else []) ++
      if q ∈ A.states then [("shape", if A.isFinal q then "doublecircle" else "circle")]
      else [] := by
  rw [picture, front, attributesOf_append, attributesOf_append, attributesOf_append,
    attributesOf_arrows, attributesOf_initial, attributesOf_nodes, List.append_nil, List.append_nil]
  simp [attributesOf, eq_comm (b := q.name)]

theorem edgesBetween_picture (A : Automaton) (p q : State) :
    edgesBetween (picture A) p.name q.name =
    (if p.name = "init" ∧ A.initial = some q then [[]] else []) ++
      if (p, q) ∈ joined A then [[("label", labelText (labelsBetween A p q).toList)]] else [] := by
  rw [picture, front, edgesBetween_append, edgesBetween_append, edgesBetween_append,
    edgesBetween_arrows, edgesBetween_initial, edgesBetween_nodes, List.nil_append]
  rfl

/-- **The picture shows the automaton**, unless a state is named as the mark at its start. -/
theorem depicts_picture (hA : A.Valid) (hinit : ⟨"init"⟩ ∉ A.states) :
    Depicts (picture A) "init" A := by
  have hne {q : State} (hq : q ∈ A.states) : q.name ≠ "init" := fun h => hinit (h ▸ hq)
  have hsource (q : State) : (⟨"init"⟩, q) ∉ joined A := fun h =>
    have ⟨_, ha⟩ := (mem_joined hA).mp h
    hinit (hA.source_mem _ ha)
  have htarget (q : State) : (q, ⟨"init"⟩) ∉ joined A := fun h =>
    have ⟨_, ha⟩ := (mem_joined hA).mp h
    hinit (hA.target_mem _ ha)
  constructor
  case mem_nodes => exact fun n => mem_nodes_picture hA
  case marker_new => exact hinit
  case size_nodes => exact size_of_names hinit fun n => mem_nodes_picture hA
  case marker_attributes =>
    have h := attributesOf_picture A ⟨"init"⟩
    simpa [hinit] using h
  case state_attributes =>
    intro q hq
    rw [attributesOf_picture]
    simp [hne hq, hq]
  case marker_edges =>
    intro q _
    have h := edgesBetween_picture A ⟨"init"⟩ q
    simpa [hsource q] using h
  case no_edge_to_marker =>
    intro n
    have hinitial : A.initial ≠ some ⟨"init"⟩ := fun h => hinit (hA.initial_mem _ h)
    have h := edgesBetween_picture A ⟨n⟩ ⟨"init"⟩
    simpa [htarget, hinitial] using h
  case state_edges =>
    intro p hp q _
    have hjoined : (p, q) ∈ joined A ↔ ¬ (labelsBetween A p q).isEmpty = true := by
      rw [mem_joined hA, OrderedSet.isEmpty_iff]
      simp
    rw [edgesBetween_picture, if_neg fun h => hne hp h.1, List.nil_append]
    by_cases h : (p, q) ∈ joined A
    · rw [if_pos h, if_neg (hjoined.mp h)]
    · rw [if_neg h, if_pos (not_not.mp fun hne => h (hjoined.mpr hne))]

/-! ## Faithful drawings -/

theorem faithful_of_drawable (hA : A.Valid) (h : Drawable A) : Faithful A := by
  refine ⟨picture A, "init", read_eq_picture fun ⟨p, q⟩ _ => ?_, depicts_picture hA h.no_init⟩
  exact readable_labelsBetween.mpr ⟨h.no_quote p q, h.backslash_followed p q⟩

/-- All labels of a faithful drawing are read back. -/
theorem Faithful.readable (hA : A.Valid) (h : Faithful A) (p q : State) :
    Readable (labelsBetween A p q).toList := by
  by_contra hbad
  obtain ⟨ss, marker, hread, hss⟩ := h
  rw [read_ofAutomaton] at hread
  obtain ⟨tail, htail, rfl⟩ := Option.map_eq_some_iff.mp hread
  have hpq : (p, q) ∈ joined A := by
    by_contra hpq
    have hnone (a : Label) : ⟨p, a, q⟩ ∉ A.edges := fun ha => hpq ((mem_joined hA).mpr ⟨a, ha⟩)
    exact hbad (readable_labelsBetween.mpr ⟨hnone _, fun ha => absurd ha (hnone _)⟩)
  -- the edge that goes wrong first need not be the one between `p` and `q`
  obtain ⟨⟨p, q⟩, hpq, x, more, hmem, hx⟩ := exists_misread ⟨_, hpq, hbad⟩ htail
  obtain ⟨a, ha⟩ := (mem_joined hA).mp hpq
  have hlabel := mem_edgesBetween.mpr (List.mem_append_right (front A) hmem)
  rw [hss.state_edges p (hA.source_mem _ ha) q (hA.target_mem _ ha)] at hlabel
  split at hlabel
  · exact absurd hlabel List.not_mem_nil
  · have hattributes := List.cons.inj (List.mem_singleton.mp hlabel)
    exact hx (congrArg Prod.snd hattributes.1)

/-- A state that is named as the mark at the start becomes one with it. -/
theorem Faithful.no_init (hA : A.Valid) (h : Faithful A) : ⟨"init"⟩ ∉ A.states := by
  intro hinit
  have hread := read_eq_picture fun pq _ => h.readable hA pq.1 pq.2
  obtain ⟨ss, marker, hread', hss⟩ := h
  obtain rfl : picture A = ss := Option.some.inj (hread.symm.trans hread')
  have hmarker := (hss.mem_nodes marker).mpr (Or.inl rfl)
  rcases (mem_nodes_picture hA).mp hmarker with rfl | hmem
  · exact hss.marker_new hinit
  · exact hss.marker_new hmem

theorem Faithful.drawable (hA : A.Valid) (h : Faithful A) : Drawable A where
  no_init := h.no_init hA
  no_quote p q := (readable_labelsBetween.mp (h.readable hA p q)).1
  backslash_followed p q := (readable_labelsBetween.mp (h.readable hA p q)).2

/-! ## Names that are given by the library -/

/-- A new initial state is named `init` unless there is such a state already. -/
theorem init_mem_insert_newStart (states : OrderedSet State) :
    ⟨"init"⟩ ∈ states.insert (Record.newStart states) := by
  by_cases h : ⟨"init"⟩ ∈ states
  · exact OrderedSet.mem_insert.mpr (Or.inr h)
  · exact OrderedSet.mem_insert.mpr (Or.inl (Record.newStart_of_not_mem h).symm)

theorem not_faithful_union (hA : A.Valid) (hB : B.Valid) : ¬ Faithful (A.union B) :=
  fun h => h.no_init (Automaton.union_valid hA hB) (init_mem_insert_newStart _)

theorem not_faithful_star (hA : A.Valid) : ¬ Faithful A.star := by
  refine fun h => h.no_init (Automaton.star_valid hA) (Automaton.mem_states_star.mpr ?_)
  exact Or.inr (OrderedSet.mem_insert.mp (init_mem_insert_newStart A.states))

theorem not_faithful_of_several_initial {R : Record} (hseveral : 1 < R.initial.length)
    (hR : R.toAutomaton = .ok A) : ¬ Faithful A := by
  intro h
  refine h.no_init (Automaton.toAutomaton_valid hR) ?_
  obtain ⟨-, rfl⟩ := Record.toAutomaton_eq_ok.mp hR
  rw [Record.described_eq_startingAt, Record.mem_states_startingAt, and_iff_right hseveral, or_comm]
  exact OrderedSet.mem_insert.mp (init_mem_insert_newStart _)

/-- **Which drawings are faithful.** The names of states make no difference, `init` excepted, which
every union, every repetition and every record with several initial states gives to a state. Of the
symbols only the quote and the backslash do. -/
theorem faithful_iff_drawable_and_not_faithful (hA : A.Valid) :
    (Faithful A ↔ Drawable A) ∧ (∀ B, B.Valid → ¬ Faithful (A.union B)) ∧ ¬ Faithful A.star ∧
      ∀ R : Record, 1 < R.initial.length → R.toAutomaton = .ok A → ¬ Faithful A :=
  ⟨⟨fun h => h.drawable hA, faithful_of_drawable hA⟩, fun _ => not_faithful_union hA,
    not_faithful_star hA, fun _ => not_faithful_of_several_initial⟩

/-- Names with quotes and backslashes, one of them empty, and an edge with both labels `\` and
`b`. -/
def escaped : Automaton where
  states := .ofList [⟨""⟩, ⟨"\"\\"⟩]
  alphabet := .ofList ['\\', 'b']
  edges := .ofList [⟨⟨""⟩, .symbol 'b', ⟨"\"\\"⟩⟩, ⟨⟨""⟩, .symbol '\\', ⟨"\"\\"⟩⟩,
    ⟨⟨"\"\\"⟩, .epsilon, ⟨"\"\\"⟩⟩]
  initial := some ⟨"\"\\"⟩
  finals := .ofList [⟨""⟩]

theorem faithful_escaped : escaped.Valid ∧ Faithful escaped ∧ ¬ Faithful escaped.star := by
  have hvalid : escaped.Valid := by decide
  obtain ⟨hiff, -, hstar, -⟩ := faithful_iff_drawable_and_not_faithful hvalid
  exact ⟨hvalid, hiff.mpr (by decide), hstar⟩

/-- The quote on a transition is drawn as the end of an empty label, and the quote behind it begins
a string that does not end. -/
theorem not_faithful_of_quote :
    let A : Automaton :=
      { states := .ofList [⟨"p"⟩, ⟨"q"⟩]
        alphabet := .ofList ['"']
        edges := .ofList [⟨⟨"p"⟩, .symbol '"', ⟨"q"⟩⟩]
        initial := some ⟨"p"⟩
        finals := .ofList [⟨"q"⟩] }
    A.Valid ∧ read (ofAutomaton A) = none ∧ ¬ Faithful A := by
  intro A
  have hparse : parse (lines (arrowLine A) (joined A) ++ ['\x7d']) = none := by decide +kernel
  have hread : read (ofAutomaton A) = none := by rw [read_ofAutomaton, hparse, Option.map_none]
  refine ⟨by decide, hread, ?_⟩
  rintro ⟨ss, marker, h, -⟩
  exact nomatch hread.symm.trans h

end RegularLanguages.Dot
