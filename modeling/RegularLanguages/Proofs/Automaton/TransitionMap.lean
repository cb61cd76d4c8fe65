import RegularLanguages.Automaton.TransitionMap
import RegularLanguages.Proofs.OrderedSet

/-!
# What a two-level map of transitions holds

Every operation is described by the successors that it leaves, and every map that has no empty
entries is determined by its successors. So the transitions may be looked at as a set, whichever
operations have led to the map.

Results:
* `mem_edges`, `pairwise_edges`: all transitions are visited, in order.
* `mem_successors_add`, `mem_successors_removeState`, `mem_successors_removeLabel`: the
  successors after each operation.
* `normal_add`, `normal_removeState`, `normal_removeLabel`: no operation leaves an empty entry.
* **`Normal.ext`**: two maps without empty entries and with the same successors are equal.
* `isDeterministic_iff`: what can be read off the entries.
-/

namespace RegularLanguages.TransitionMap

variable {M N : TransitionMap} {row : Row} {p q r : State} {a b : Label}
  {targets : OrderedSet State}

/-! ## Looking up -/

theorem mem_successors : r ∈ M.successors p a ↔
    ∃ (row : Row) (targets : OrderedSet State),
      M.rows[p]? = some row ∧ row[a]? = some targets ∧ r ∈ targets := by
  unfold successors
  cases hrow : M.rows[p]? with
  | none => simp
  | some row => cases htargets : row[a]? <;> simp [htargets]

theorem mem_rowEdges : (a, r) ∈ rowEdges row ↔
    ∃ targets : OrderedSet State, row[a]? = some targets ∧ r ∈ targets := by
  unfold rowEdges
  rw [List.mem_flatMap]
  constructor
  · rintro ⟨⟨b, targets⟩, hrow, h⟩
    obtain ⟨r', hr, heq⟩ := List.mem_map.mp h
    obtain ⟨rfl, rfl⟩ := Prod.mk.inj heq
    exact ⟨targets, Std.ExtTreeMap.mem_toList_iff_getElem?_eq_some.mp hrow, hr⟩
  · rintro ⟨targets, hrow, hr⟩
    exact ⟨(a, targets), Std.ExtTreeMap.mem_toList_iff_getElem?_eq_some.mpr hrow,
      List.mem_map.mpr ⟨r, hr, rfl⟩⟩

theorem mem_edges {e : Edge} : e ∈ M.edges ↔ e.target ∈ M.successors e.source e.label := by
  unfold edges
  rw [List.mem_flatMap, mem_successors]
  constructor
  · rintro ⟨⟨p, row⟩, hrow, h⟩
    obtain ⟨⟨a, r⟩, har, rfl⟩ := List.mem_map.mp h
    obtain ⟨targets, htargets, hr⟩ := mem_rowEdges.mp har
    exact ⟨row, targets, Std.ExtTreeMap.mem_toList_iff_getElem?_eq_some.mp hrow, htargets, hr⟩
  · rintro ⟨row, targets, hrow, htargets, hr⟩
    exact ⟨(e.source, row), Std.ExtTreeMap.mem_toList_iff_getElem?_eq_some.mpr hrow,
      List.mem_map.mpr ⟨(e.label, e.target), mem_rowEdges.mpr ⟨targets, htargets, hr⟩, rfl⟩⟩

/-! ## The order of a traversal -/

theorem compare_edge_of_source {e f : Edge} (h : compare e.source f.source = .lt) :
    compare e f = .lt := by
  show (compare e.source f.source).then _ = .lt
  rw [h]
  rfl

theorem compare_edge_of_label (h : compare a b = .lt) :
    compare (⟨p, a, q⟩ : Edge) ⟨p, b, r⟩ = .lt := by
  show (compare p p).then ((compare a b).then _) = .lt
  simp [h]

theorem compare_edge_of_target (h : compare q r = .lt) :
    compare (⟨p, a, q⟩ : Edge) ⟨p, a, r⟩ = .lt := by
  show (compare p p).then ((compare a a).then (compare q r)) = .lt
  simp [h]

theorem pairwise_rowEdges (p : State) (row : Row) :
    (rowEdges row).Pairwise fun x y => compare (⟨p, x.1, x.2⟩ : Edge) ⟨p, y.1, y.2⟩ = .lt := by
  unfold rowEdges
  refine List.pairwise_flatMap.mpr ⟨fun ⟨a, targets⟩ _ => ?_, ?_⟩
  · exact List.pairwise_map.mpr (targets.sorted.imp compare_edge_of_target)
  · refine row.ordered_keys_toList.imp fun {x y} h u hu v hv => ?_
    obtain ⟨-, -, rfl⟩ := List.mem_map.mp hu
    obtain ⟨-, -, rfl⟩ := List.mem_map.mp hv
    exact compare_edge_of_label h

/-- The transitions are visited in increasing order, each once. -/
theorem pairwise_edges (M : TransitionMap) : M.edges.Pairwise fun e f => compare e f = .lt := by
  unfold edges
  refine List.pairwise_flatMap.mpr ⟨fun ⟨p, row⟩ _ => ?_, ?_⟩
  · exact List.pairwise_map.mpr (pairwise_rowEdges p row)
  · refine M.rows.ordered_keys_toList.imp fun {x y} h e he f hf => ?_
    obtain ⟨-, -, rfl⟩ := List.mem_map.mp he
    obtain ⟨-, -, rfl⟩ := List.mem_map.mp hf
    exact compare_edge_of_source h

/-! ## The successors after an operation -/

@[simp] theorem mem_successors_empty : r ∉ empty.successors p a := by
  rw [mem_successors]
  rintro ⟨row, -, hrow, -⟩
  exact absurd hrow (by simp [empty])

theorem rows_add (ts : List State) : (M.add p a ts).rows[q]? =
    if p = q then some ((M.rows[p]?.getD ∅).alter a fun old => some (.ofList ts ∪ old.getD ∅))
    else M.rows[q]? := by
  simp only [add, Std.ExtTreeMap.getElem?_alter, Std.LawfulEqCmp.compare_eq_iff_eq]

theorem successors_add (ts : List State) : (M.add p a ts).successors q b =
    if p = q ∧ a = b then .ofList ts ∪ M.successors p a else M.successors q b := by
  unfold successors
  rw [rows_add]
  by_cases hq : p = q
  · subst hq
    rw [if_pos rfl, Option.bind_some, Std.ExtTreeMap.getElem?_alter]
    simp only [Std.LawfulEqCmp.compare_eq_iff_eq, true_and]
    by_cases hb : a = b
    · subst hb
      rw [if_pos rfl, if_pos rfl]
      cases M.rows[p]? <;> simp
    · rw [if_neg hb, if_neg hb]
      cases M.rows[p]? <;> simp
  · rw [if_neg hq, if_neg fun h => hq h.1]

theorem mem_successors_add {ts : List State} : r ∈ (M.add p a ts).successors q b ↔
    (p = q ∧ a = b ∧ r ∈ ts) ∨ r ∈ M.successors q b := by
  rw [successors_add]
  by_cases h : p = q ∧ a = b
  · obtain ⟨rfl, rfl⟩ := h
    simp
  · rw [if_neg h]
    exact (or_iff_right fun h' => h ⟨h'.1, h'.2.1⟩).symm

theorem getElem?_rowWithout : (rowWithout row q)[a]? = some targets ↔
    ∃ old : OrderedSet State, row[a]? = some old ∧ old.erase q = targets ∧
      targets.isEmpty = false := by
  simp only [rowWithout, Std.ExtTreeMap.getElem?_filter', Std.ExtTreeMap.getElem?_map,
    Option.filter_eq_some_iff, Option.map_eq_some_iff, Bool.not_eq_true']
  grind

theorem rows_removeState : (M.removeState q).rows[p]? = some row ↔
    p ≠ q ∧ ∃ old : Row, M.rows[p]? = some old ∧ rowWithout old q = row ∧ row.isEmpty = false := by
  simp only [removeState, Std.ExtTreeMap.getElem?_filter', Std.ExtTreeMap.getElem?_map,
    Std.ExtTreeMap.getElem?_erase, Std.LawfulEqCmp.compare_eq_iff_eq, Option.filter_eq_some_iff,
    Option.map_eq_some_iff, Bool.not_eq_true']
  grind

theorem row_isEmpty_eq_false :
    row.isEmpty = false ↔ ∃ (a : Label) (targets : OrderedSet State), row[a]? = some targets := by
  rw [← Std.ExtTreeMap.isEmpty_toList, List.isEmpty_eq_false_iff_exists_mem]
  constructor
  · rintro ⟨⟨a, targets⟩, h⟩
    exact ⟨a, targets, Std.ExtTreeMap.mem_toList_iff_getElem?_eq_some.mp h⟩
  · rintro ⟨a, targets, h⟩
    exact ⟨(a, targets), Std.ExtTreeMap.mem_toList_iff_getElem?_eq_some.mpr h⟩

theorem targets_isEmpty_eq_false : targets.isEmpty = false ↔ ∃ r, r ∈ targets :=
  List.isEmpty_eq_false_iff_exists_mem

theorem mem_successors_removeState :
    r ∈ (M.removeState q).successors p a ↔ r ∈ M.successors p a ∧ p ≠ q ∧ r ≠ q := by
  rw [mem_successors, mem_successors]
  constructor
  · rintro ⟨row, targets, hrow, htargets, hr⟩
    obtain ⟨hp, old, hold, rfl, -⟩ := rows_removeState.mp hrow
    obtain ⟨before, hbefore, rfl, -⟩ := getElem?_rowWithout.mp htargets
    obtain ⟨hr, hne⟩ := OrderedSet.mem_erase.mp hr
    exact ⟨⟨old, before, hold, hbefore, hr⟩, hp, hne⟩
  · rintro ⟨⟨row, targets, hrow, htargets, hr⟩, hp, hne⟩
    have hmem : r ∈ targets.erase q := OrderedSet.mem_erase.mpr ⟨hr, hne⟩
    have hleft : (rowWithout row q)[a]? = some (targets.erase q) :=
      getElem?_rowWithout.mpr ⟨targets, htargets, rfl, targets_isEmpty_eq_false.mpr ⟨r, hmem⟩⟩
    exact ⟨rowWithout row q, targets.erase q,
      rows_removeState.mpr ⟨hp, row, hrow, rfl, row_isEmpty_eq_false.mpr ⟨a, _, hleft⟩⟩,
      hleft, hmem⟩

theorem fst_removeLabel : (M.removeLabel p a).1 = M.rows[p]?.bind (·[a]?) := by
  unfold removeLabel
  cases M.rows[p]? <;> rfl

theorem rows_removeLabel : (M.removeLabel p a).2.rows[q]? = some row ↔
    (q ≠ p ∧ M.rows[q]? = some row) ∨
      (q = p ∧ ∃ old : Row, M.rows[p]? = some old ∧ old.erase a = row ∧ row.isEmpty = false) := by
  unfold removeLabel
  cases hrow : M.rows[p]? with
  | none => grind
  | some old =>
    by_cases hrest : (old.erase a).isEmpty = true
    · simp only [if_pos hrest, Std.ExtTreeMap.getElem?_erase,
        Std.LawfulEqCmp.compare_eq_iff_eq]
      grind
    · simp only [if_neg hrest, Std.ExtTreeMap.getElem?_insert,
        Std.LawfulEqCmp.compare_eq_iff_eq]
      grind

theorem mem_successors_removeLabel :
    r ∈ (M.removeLabel p a).2.successors q b ↔ r ∈ M.successors q b ∧ ¬(q = p ∧ b = a) := by
  rw [mem_successors, mem_successors]
  constructor
  · rintro ⟨row, targets, hrow, htargets, hr⟩
    rcases rows_removeLabel.mp hrow with ⟨hq, hrow⟩ | ⟨rfl, old, hold, rfl, -⟩
    · exact ⟨⟨row, targets, hrow, htargets, hr⟩, fun h => hq h.1⟩
    · rw [Std.ExtTreeMap.getElem?_erase] at htargets
      simp only [Std.LawfulEqCmp.compare_eq_iff_eq] at htargets
      split at htargets
      · exact nomatch htargets
      · rename_i hb
        exact ⟨⟨old, targets, hold, htargets, hr⟩, fun h => hb h.2.symm⟩
  · rintro ⟨⟨row, targets, hrow, htargets, hr⟩, hne⟩
    by_cases hq : q = p
    · subst hq
      have hleft : (row.erase a)[b]? = some targets := by
        rw [Std.ExtTreeMap.getElem?_erase,
          if_neg fun h => hne ⟨rfl, (Std.LawfulEqCmp.eq_of_compare h).symm⟩]
        exact htargets
      exact ⟨row.erase a, targets, rows_removeLabel.mpr
        (Or.inr ⟨rfl, row, hrow, rfl, row_isEmpty_eq_false.mpr ⟨b, targets, hleft⟩⟩), hleft, hr⟩
    · exact ⟨row, targets, rows_removeLabel.mpr (Or.inl ⟨hq, hrow⟩), htargets, hr⟩

/-! ## Maps without empty entries -/

theorem normal_empty : empty.Normal where
  row_nonempty p row h := absurd h (by simp [empty])
  targets_nonempty p row a targets h := absurd h (by simp [empty])

theorem normal_add (hM : M.Normal) {ts : List State} (hts : ts ≠ []) : (M.add p a ts).Normal := by
  have hnew (old : OrderedSet State) : (.ofList ts ∪ old : OrderedSet State).isEmpty = false := by
    obtain ⟨r, hr⟩ := List.exists_mem_of_ne_nil ts hts
    exact targets_isEmpty_eq_false.mpr ⟨r, by simp [hr]⟩
  constructor
  case row_nonempty =>
    intro q row h
    rw [rows_add] at h
    split at h
    · obtain rfl := Option.some.inj h
      refine row_isEmpty_eq_false.mpr ⟨a, .ofList ts ∪ ((M.rows[p]?.getD ∅)[a]?).getD ∅, ?_⟩
      rw [Std.ExtTreeMap.getElem?_alter_self]
    · exact hM.row_nonempty q row h
  case targets_nonempty =>
    intro q row b targets h h'
    rw [rows_add] at h
    split at h
    · obtain rfl := Option.some.inj h
      rw [Std.ExtTreeMap.getElem?_alter] at h'
      split at h'
      · exact Option.some.inj h' ▸ hnew _
      · cases hrow : M.rows[p]? with
        | none => exact absurd h' (by simp [hrow])
        | some old =>
          rw [hrow] at h'
          exact hM.targets_nonempty p old b targets hrow h'
    · exact hM.targets_nonempty q row b targets h h'

/-- Removing a state leaves no empty entry, whatever was there before. -/
theorem normal_removeState (M : TransitionMap) (q : State) : (M.removeState q).Normal where
  row_nonempty p row h := (rows_removeState.mp h).2.choose_spec.2.2
  targets_nonempty p row a targets h h' := by
    obtain ⟨-, old, -, rfl, -⟩ := rows_removeState.mp h
    exact (getElem?_rowWithout.mp h').choose_spec.2.2

theorem normal_removeLabel (hM : M.Normal) : (M.removeLabel p a).2.Normal where
  row_nonempty q row h := by
    rcases rows_removeLabel.mp h with ⟨-, hrow⟩ | ⟨-, -, -, -, hrow⟩
    · exact hM.row_nonempty q row hrow
    · exact hrow
  targets_nonempty q row b targets h h' := by
    rcases rows_removeLabel.mp h with ⟨-, hrow⟩ | ⟨-, old, hold, rfl, -⟩
    · exact hM.targets_nonempty q row b targets hrow h'
    · rw [Std.ExtTreeMap.getElem?_erase] at h'
      split at h'
      · exact nomatch h'
      · exact hM.targets_nonempty p old b targets hold h'

theorem successors_of_rows (hrow : M.rows[p]? = some row) (htargets : row[a]? = some targets) :
    M.successors p a = targets := by
  simp [successors, hrow, htargets]

theorem rows_of_mem_successors (h : r ∈ M.successors p a) :
    ∃ row : Row, M.rows[p]? = some row ∧ row[a]? = some (M.successors p a) := by
  obtain ⟨row, targets, hrow, htargets, -⟩ := mem_successors.mp h
  exact ⟨row, hrow, (successors_of_rows hrow htargets).symm ▸ htargets⟩

/-- What the removal of a label tells: the successors, unless there are none. -/
theorem fst_removeLabel_of_normal (hM : M.Normal) : (M.removeLabel p a).1 =
    if (M.successors p a).isEmpty then none else some (M.successors p a) := by
  rw [fst_removeLabel]
  unfold successors
  cases hrow : M.rows[p]? with
  | none => rfl
  | some row =>
    cases htargets : row[a]? with
    | none => simp [htargets, OrderedSet.isEmpty]
    | some targets => simp [htargets, hM.targets_nonempty p row a targets hrow htargets]

/-- In a map without empty entries, every entry has a successor. -/
theorem Normal.exists_mem_successors (hM : M.Normal) (hrow : M.rows[p]? = some row)
    (htargets : row[a]? = some targets) : ∃ r, r ∈ M.successors p a := by
  rw [successors_of_rows hrow htargets]
  exact targets_isEmpty_eq_false.mp (hM.targets_nonempty p row a targets hrow htargets)

/-- What is stored in a map without empty entries is stored in every map with its successors. -/
theorem Normal.rows_of_successors_eq (hM : M.Normal)
    (h : ∀ p a, M.successors p a = N.successors p a) (hrow : M.rows[p]? = some row)
    (htargets : row[a]? = some targets) :
    ∃ row' : Row, N.rows[p]? = some row' ∧ row'[a]? = some targets := by
  obtain ⟨r, hr⟩ := hM.exists_mem_successors hrow htargets
  obtain ⟨row', hrow', htargets'⟩ := rows_of_mem_successors (h p a ▸ hr)
  rw [← h p a, successors_of_rows hrow htargets] at htargets'
  exact ⟨row', hrow', htargets'⟩

theorem Normal.rows_le (hM : M.Normal) (hN : N.Normal)
    (h : ∀ p a, M.successors p a = N.successors p a) (hrow : M.rows[p]? = some row) :
    N.rows[p]? = some row := by
  obtain ⟨a, targets, htargets⟩ := row_isEmpty_eq_false.mp (hM.row_nonempty p row hrow)
  obtain ⟨row', hrow', -⟩ := hM.rows_of_successors_eq h hrow htargets
  have heq : row' = row := by
    refine Std.ExtTreeMap.ext_getElem? fun b => Option.ext fun ts => ⟨fun hb => ?_, fun hb => ?_⟩
    · obtain ⟨row'', hrow'', hb'⟩ := hN.rows_of_successors_eq (fun p a => (h p a).symm) hrow' hb
      rwa [Option.some.inj (hrow.symm.trans hrow'')]
    · obtain ⟨row'', hrow'', hb'⟩ := hM.rows_of_successors_eq h hrow hb
      rwa [Option.some.inj (hrow'.symm.trans hrow'')]
  rw [hrow', heq]

/-- **A map without empty entries is determined by its successors.** -/
theorem Normal.ext (hM : M.Normal) (hN : N.Normal)
    (h : ∀ p a, M.successors p a = N.successors p a) : M = N := by
  obtain ⟨rows⟩ := M
  obtain ⟨rows'⟩ := N
  refine congrArg TransitionMap.mk (Std.ExtTreeMap.ext_getElem? fun p => Option.ext fun row =>
    ⟨fun hrow => hM.rows_le hN h hrow, fun hrow => hN.rows_le hM (fun p a => (h p a).symm) hrow⟩)

/-! ## Determinism -/

theorem isDeterministic_iff (hM : M.Normal) : M.isDeterministic = true ↔
    (∀ p r, r ∉ M.successors p .epsilon) ∧
      ∀ p a, ∀ q ∈ M.successors p a, ∀ r ∈ M.successors p a, q = r := by
  unfold isDeterministic
  simp only [List.all_eq_true, Bool.and_eq_true, decide_eq_true_eq, Prod.forall,
    Std.ExtTreeMap.mem_toList_iff_getElem?_eq_some]
  constructor
  · intro h
    refine ⟨fun p r hr => ?_, fun p a q hq r hr => ?_⟩
    · obtain ⟨row, hrow, hε⟩ := rows_of_mem_successors hr
      exact (h p row hrow _ _ hε).1 rfl
    · obtain ⟨row, hrow, ha⟩ := rows_of_mem_successors hr
      exact OrderedSet.size_le_one_iff.mp (h p row hrow _ _ ha).2 q hq r hr
  · rintro ⟨hε, hunique⟩ p row hrow a targets htargets
    refine ⟨?_, ?_⟩
    · rintro rfl
      obtain ⟨r, hr⟩ := hM.exists_mem_successors hrow htargets
      exact hε p r hr
    · rw [← successors_of_rows hrow htargets, OrderedSet.size_le_one_iff]
      exact hunique p a

end RegularLanguages.TransitionMap
