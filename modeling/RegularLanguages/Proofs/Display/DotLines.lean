import Mathlib.Data.List.Nodup
import RegularLanguages.Proofs.Display.DotReader
import RegularLanguages.Proofs.OrderedSet

/-!
# What is read of a drawing

The transitions are drawn by one line for every pair of states that are joined, with the labels in
order. In front of these lines everything is read as it is meant, because names are escaped. What
is read of the transitions depends on their labels.

Results:
* `labels_edgesFrom`, `mem_joined`, `nodup_joined`: which lines draw transitions.
* `read_ofAutomaton`: all that comes in front of them is read.
* **`read_eq_picture`**, **`exists_misread`**: what becomes of the transitions.
-/

namespace RegularLanguages.Dot

variable {A : Automaton} {p q : State} {ss : List Statement}

/-! ## Which states are joined -/

/-- The labels of the transitions from one state to another. -/
def labelsBetween (A : Automaton) (p q : State) : OrderedSet Label :=
  .ofList ((A.edges.toList.filter fun e => e.source = p ∧ e.target = q).map (·.label))

@[simp] theorem mem_labelsBetween {a : Label} : a ∈ labelsBetween A p q ↔ ⟨p, a, q⟩ ∈ A.edges := by
  simp only [labelsBetween, OrderedSet.mem_ofList, List.mem_map, List.mem_filter, decide_eq_true_eq,
    OrderedSet.mem_toList]
  exact ⟨fun ⟨e, ⟨he, hs, ht⟩, hl⟩ => by subst hs hl ht; exact he, fun h => ⟨_, ⟨h, rfl, rfl⟩, rfl⟩⟩

theorem compare_label {e f : Edge} (hs : e.source = f.source) (ht : e.target = f.target)
    (h : compare e f = .lt) : compare e.label f.label = .lt := by
  have hcompare : (compare e.source f.source).then
      ((compare e.label f.label).then (compare e.target f.target)) = .lt := h
  rw [hs, ht] at hcompare
  simpa using hcompare

/-- The labels are listed in order, each once. -/
theorem labels_edgesFrom (A : Automaton) (p q : State) :
    ((A.edgesFrom p).filter (·.2 = q)).map (·.1) = (labelsBetween A p q).toList := by
  refine OrderedSet.eq_of_sorted ?_ (labelsBetween A p q).sorted fun a => ?_
  · have hedges : ((A.edgesFrom p).filter (·.2 = q)).map (·.1) =
        (A.edges.toList.filter fun e => e.target = q ∧ e.source = p).map (·.label) := by
      simp [Automaton.edgesFrom, List.filter_map, List.filter_filter, Function.comp_def]
    rw [hedges, List.pairwise_map]
    refine (A.edges.sorted.filter _).imp_of_mem fun {e f} he hf h => ?_
    simp only [List.mem_filter, decide_eq_true_eq] at he hf
    exact compare_label (he.2.2.trans hf.2.2.symm) (he.2.1.trans hf.2.1.symm) h
  · rw [OrderedSet.mem_toList, mem_labelsBetween, ← Automaton.mem_edgesFrom]
    simp

/-- The pairs of states that are joined by transitions. -/
def joined (A : Automaton) : List (State × State) :=
  A.states.toList.flatMap fun p =>
    (OrderedSet.ofList ((A.edgesFrom p).map (·.2))).toList.map fun q => (p, q)

theorem mem_joined (hA : A.Valid) : (p, q) ∈ joined A ↔ ∃ a, ⟨p, a, q⟩ ∈ A.edges := by
  simp only [joined, List.mem_flatMap, List.mem_map, OrderedSet.mem_toList, OrderedSet.mem_ofList,
    Prod.mk.injEq]
  constructor
  · rintro ⟨p, -, q, ⟨⟨a, _⟩, h, rfl⟩, rfl, rfl⟩
    exact ⟨a, Automaton.mem_edgesFrom.mp h⟩
  · rintro ⟨a, h⟩
    exact ⟨p, hA.source_mem _ h, q, ⟨(a, q), Automaton.mem_edgesFrom.mpr h, rfl⟩, rfl, rfl⟩

theorem nodup_joined (A : Automaton) : (joined A).Nodup := by
  refine List.nodup_flatMap.mpr ⟨fun p _ => ?_, ?_⟩
  · exact (OrderedSet.nodup_toList _).map fun _ _ h => congrArg Prod.snd h
  · refine (OrderedSet.nodup_toList A.states).imp fun {p p'} hne => ?_
    intro x hx hx'
    obtain ⟨_, -, rfl⟩ := List.mem_map.mp hx
    obtain ⟨_, -, h⟩ := List.mem_map.mp hx'
    exact hne (congrArg Prod.fst h).symm

/-- The line that draws the transitions between two states. -/
def arrowLine (A : Automaton) (pq : State × State) : String :=
  edge pq.1 pq.2 (labelsBetween A pq.1 pq.2).toList

theorem flatMap_edgesOf (A : Automaton) :
    A.states.toList.flatMap (edgesOf A.adjacency) = (joined A).map (arrowLine A) := by
  rw [joined, List.map_flatMap]
  refine congrArg (A.states.toList.flatMap ·) (funext fun p => ?_)
  simp only [edgesOf, Automaton.edgesOf_adjacency, labels_edgesFrom, List.map_map]
  rfl

/-! ## Line by line -/

/-- One line for each entry of a list. -/
def lines {α : Type} (line : α → String) (xs : List α) : List Char :=
  xs.flatMap fun x => (line x).toList ++ ['\n']

@[simp] theorem lines_nil {α : Type} (line : α → String) : lines line [] = [] := rfl

theorem lines_cons {α : Type} (line : α → String) (x : α) (xs : List α) (rest : List Char) :
    lines line (x :: xs) ++ rest = (line x).toList ++ '\n' :: (lines line xs ++ rest) := by
  simp [lines]

theorem toList_intercalate_lines (last : String) : ∀ ls : List String,
    ("\n".intercalate (ls ++ [last])).toList = lines id ls ++ last.toList
  | [] => by simp [lines]
  | [l] => by simp [lines]
  | l :: l' :: ls => by
    have ih := toList_intercalate_lines last (l' :: ls)
    rw [String.toList_intercalate] at ih ⊢
    rw [lines_cons, ← ih]
    simp [List.intercalate_cons_cons]

theorem parse_lines {α : Type} (line : α → String) (statement : α → Statement) :
    ∀ (xs : List α) (rest : List Char),
      (∀ x ∈ xs, ∀ rest, parse ((line x).toList ++ '\n' :: rest) =
        (parse rest).map (statement x :: ·)) →
      parse (lines line xs ++ rest) = (parse rest).map (xs.map statement ++ ·)
  | [], rest, _ => by simp [lines]
  | x :: xs, rest, h => by
    rw [lines_cons, h x List.mem_cons_self,
      parse_lines line statement xs rest fun y hy => h y (List.mem_cons_of_mem x hy),
      Option.map_map]
    rfl

/-! ## What is read -/

/-- The statement that draws the transitions between two states. -/
def arrow (A : Automaton) (pq : State × State) : Statement :=
  edgeStatement pq.1 pq.2 (labelsBetween A pq.1 pq.2).toList

/-- What is drawn in front of the transitions. -/
def front (A : Automaton) : List Statement :=
  [.setting "rankdir" "LR", .node "init" [("label", ""), ("shape", "none")]] ++
    (A.states.toList.map (nodeStatement A) ++ A.initial.toList.map fun q => .edge "init" q.name [])

/-- What is drawn if nothing goes wrong. -/
def picture (A : Automaton) : List Statement := front A ++ (joined A).map (arrow A)

theorem toList_ofAutomaton (A : Automaton) : (ofAutomaton A).toList =
    "digraph A \x7b\n".toList ++ ("rankdir=LR\n".toList ++
      ("init [label=\"\", shape=none]\n".toList ++ (lines (node A) A.states.toList ++
        (lines (fun q : State => "init -> " ++ quoted q.name) A.initial.toList ++
          (lines (arrowLine A) (joined A) ++ ['\x7d']))))) := by
  simp only [ofAutomaton, flatMap_edgesOf]
  rw [toList_intercalate_lines]
  simp [lines, List.flatMap_map]

theorem tokens_arrows (A : Automaton) (pqs : List (State × State)) (us : List Token) :
    tokens .between (lines (arrowLine A) pqs ++ ['\x7d']) ≠ some (.openBracket :: us) := by
  cases pqs with
  | nil => simp [lines, tokens, run, step, begin?, isSpace, isLetter, sign?, finish]
  | cons pq pqs =>
    have hname (rest : List Char) : tokens .between ((quoted pq.1.name).toList ++ rest) =
        (tokens .between rest).map (.name pq.1.name :: ·) := tokens_append (yields_quoted _) rest
    rw [lines_cons, arrowLine, edge_append]
    simp only [edgeStart, List.append_assoc, hname]
    simp

theorem read_ofAutomaton (A : Automaton) : read (ofAutomaton A) =
    (parse (lines (arrowLine A) (joined A) ++ ['\x7d'])).map (front A ++ ·) := by
  have hdigraph : Yields "digraph A \x7b\n".toList
      [.keyword "digraph", .name "A", .openBrace] := rfl
  have hrankdir : Yields "rankdir=LR\n".toList [.name "rankdir", .equals, .name "LR"] := rfl
  have hmarker : Yields "init [label=\"\", shape=none]\n".toList
      [.name "init", .openBracket, .name "label", .equals, .name "", .comma, .name "shape", .equals,
        .name "none", .closeBracket] := rfl
  have hinitial : parse (lines (fun q : State => "init -> " ++ quoted q.name) A.initial.toList ++
      (lines (arrowLine A) (joined A) ++ ['\x7d'])) =
        (parse (lines (arrowLine A) (joined A) ++ ['\x7d'])).map
          (A.initial.toList.map (fun q : State => .edge "init" q.name []) ++ ·) := by
    cases A.initial with
    | none => simp [lines]
    | some q =>
      rw [Option.toList_some, lines_cons, lines_nil, List.nil_append,
        parse_initial q (tokens_arrows A _)]
      rfl
  rw [read, toList_ofAutomaton, tokens_append hdigraph, Option.bind_map]
  show parse _ = _
  rw [parse_line hrankdir (fun us => rfl), parse_line hmarker (fun us => rfl),
    parse_lines _ _ _ _ (fun q _ => parse_node A q), hinitial]
  simp [front, Function.comp_def, Statement.adding]

/-- Transitions with readable labels only are read as they are meant. -/
theorem read_eq_picture (h : ∀ pq ∈ joined A, Readable (labelsBetween A pq.1 pq.2).toList) :
    read (ofAutomaton A) = some (picture A) := by
  have hend : parse ['\x7d'] = some [] := rfl
  rw [read_ofAutomaton, parse_lines (arrowLine A) (arrow A) _ _ fun pq hpq =>
    parse_edge (h pq hpq) pq.1 pq.2, hend]
  simp [picture]

/-- If some labels are not readable, the first of them are drawn wrongly, or nothing is read. -/
theorem exists_misread {pqs : List (State × State)} {rest : List Char}
    (h : ∃ pq ∈ pqs, ¬ Readable (labelsBetween A pq.1 pq.2).toList)
    (hss : parse (lines (arrowLine A) pqs ++ rest) = some ss) :
    ∃ pq ∈ pqs, ∃ x more, .edge pq.1.name pq.2.name (("label", x) :: more) ∈ ss ∧
      x ≠ labelText (labelsBetween A pq.1 pq.2).toList := by
  induction pqs generalizing ss with
  | nil => simp at h
  | cons pq pqs ih =>
    rw [lines_cons, arrowLine] at hss
    by_cases hpq : Readable (labelsBetween A pq.1 pq.2).toList
    · rw [parse_edge hpq] at hss
      obtain ⟨tail, htail, rfl⟩ := Option.map_eq_some_iff.mp hss
      obtain ⟨pq', hpq', x, more, hmem, hx⟩ := ih (by simpa [hpq] using h) htail
      exact ⟨pq', List.mem_cons_of_mem pq hpq', x, more, List.mem_cons_of_mem _ hmem, hx⟩
    · obtain ⟨x, more, us, rfl, hx⟩ := parse_edge_of_not_readable hpq hss
      exact ⟨pq, List.mem_cons_self, x, more, List.mem_cons_self, hx⟩

end RegularLanguages.Dot
