import RegularLanguages.Proofs.Automaton.Deterministic
import RegularLanguages.Proofs.FreshNames
import RegularLanguages.Proofs.OrderedSet
import RegularLanguages.Proofs.Regex.Reading
import RegularLanguages.Regex.Positions

/-!
# The position automaton accepts the language of the expression

What may follow when a position has just been read is a language of its own
(`afterPosition`), put together from those of the parts like the words that may still be read in
a fragment. The sets of first, last and following positions say how this language starts and
whether it has the empty word, so reading a word is going from position to position.

Results:
* `count_positions`, `nullable_positions`, `positions_within`: which positions there are.
* **`matches_cons_iff_first`**: a word starts at one of the first positions.
* **`afterPosition_nil_iff_last`**, **`afterPosition_cons_iff_follow`**: behind a position the
  word ends if this is one of the last positions, or goes on at one that may follow.
* **`accepts_glushkov_iff`**: the automaton accepts exactly the words of the expression.
* `states_glushkov`, **`edge_glushkov`**: there is a state for each position, and what enters it
  carries the symbol at the position.
-/

namespace RegularLanguages.Regex

variable {l r : Regex} {n i j : Nat} {c : Char} {u v w : Word}

/-! ## The positions of an expression -/

@[simp] theorem count_positions : ∀ (r : Regex) (n : Nat),
    (r.positions n).count = n + r.leaves.length
  | epsilon, n => rfl
  | symbol c, n => rfl
  | union l r, n => by
    simp only [positions, leaves, List.length_append, count_positions]
    omega
  | concat l r, n => by
    simp only [positions, leaves, List.length_append, count_positions]
    omega
  | star r, n => count_positions r n

@[simp] theorem nullable_positions : ∀ (r : Regex) (n : Nat),
    (r.positions n).nullable = r.nullable
  | epsilon, n => rfl
  | symbol c, n => rfl
  | union l r, n => by simp only [positions, nullable, nullable_positions]
  | concat l r, n => by simp only [positions, nullable, nullable_positions]
  | star r, n => rfl

theorem mem_pairs {is js : List Nat} : (i, j) ∈ pairs is js ↔ i ∈ is ∧ j ∈ js := by
  simp [pairs]

theorem mem_first_union : i ∈ ((union l r).positions n).first ↔
    i ∈ (l.positions n).first ∨ i ∈ (r.positions (l.positions n).count).first :=
  List.mem_append

theorem mem_last_union : i ∈ ((union l r).positions n).last ↔
    i ∈ (l.positions n).last ∨ i ∈ (r.positions (l.positions n).count).last :=
  List.mem_append

theorem mem_follow_union : (i, j) ∈ ((union l r).positions n).follow ↔
    (i, j) ∈ (l.positions n).follow ∨ (i, j) ∈ (r.positions (l.positions n).count).follow :=
  List.mem_append

theorem mem_first_concat : i ∈ ((concat l r).positions n).first ↔
    i ∈ (l.positions n).first ∨
      l.nullable = true ∧ i ∈ (r.positions (l.positions n).count).first := by
  simp only [positions, nullable_positions]
  by_cases h : l.nullable = true
  · simp [h]
  · simp [h]

theorem mem_last_concat : i ∈ ((concat l r).positions n).last ↔
    r.nullable = true ∧ i ∈ (l.positions n).last ∨
      i ∈ (r.positions (l.positions n).count).last := by
  simp only [positions, nullable_positions]
  by_cases h : r.nullable = true
  · simp [h]
  · simp [h]

theorem mem_follow_concat : (i, j) ∈ ((concat l r).positions n).follow ↔
    ((i, j) ∈ (l.positions n).follow ∨ (i, j) ∈ (r.positions (l.positions n).count).follow) ∨
      i ∈ (l.positions n).last ∧ j ∈ (r.positions (l.positions n).count).first :=
  List.mem_append.trans (or_congr List.mem_append mem_pairs)

theorem mem_follow_star : (i, j) ∈ ((star r).positions n).follow ↔
    (i, j) ∈ (r.positions n).follow ∨ i ∈ (r.positions n).last ∧ j ∈ (r.positions n).first :=
  List.mem_append.trans (or_congr_right mem_pairs)

/-- The positions are numbered behind `n`, up to the count. -/
structure Positions.Within (found : Positions) (n : Nat) : Prop where
  first : ∀ {i}, i ∈ found.first → n < i ∧ i ≤ found.count
  last : ∀ {i}, i ∈ found.last → n < i ∧ i ≤ found.count
  follow : ∀ {i j}, (i, j) ∈ found.follow → (n < i ∧ i ≤ found.count) ∧ n < j ∧ j ≤ found.count

theorem positions_within : ∀ (r : Regex) (n : Nat), (r.positions n).Within n
  | epsilon, n => by constructor <;> simp [positions]
  | symbol c, n => by constructor <;> simp [positions]
  | union l r, n => by
    have hl := positions_within l n
    have hr := positions_within r (l.positions n).count
    have hcl := count_positions l n
    have hcr := count_positions r (l.positions n).count
    have hcount : ((union l r).positions n).count =
      (r.positions (l.positions n).count).count := rfl
    constructor
    case first =>
      intro i hi
      rcases mem_first_union.mp hi with hi | hi
      · have := hl.first hi
        omega
      · have := hr.first hi
        omega
    case last =>
      intro i hi
      rcases mem_last_union.mp hi with hi | hi
      · have := hl.last hi
        omega
      · have := hr.last hi
        omega
    case follow =>
      intro i j hij
      rcases mem_follow_union.mp hij with hij | hij
      · have := hl.follow hij
        omega
      · have := hr.follow hij
        omega
  | concat l r, n => by
    have hl := positions_within l n
    have hr := positions_within r (l.positions n).count
    have hcl := count_positions l n
    have hcr := count_positions r (l.positions n).count
    have hcount : ((concat l r).positions n).count =
      (r.positions (l.positions n).count).count := rfl
    constructor
    case first =>
      intro i hi
      rcases mem_first_concat.mp hi with hi | ⟨_, hi⟩
      · have := hl.first hi
        omega
      · have := hr.first hi
        omega
    case last =>
      intro i hi
      rcases mem_last_concat.mp hi with ⟨_, hi⟩ | hi
      · have := hl.last hi
        omega
      · have := hr.last hi
        omega
    case follow =>
      intro i j hij
      rcases mem_follow_concat.mp hij with (hij | hij) | ⟨hi, hj⟩
      · have := hl.follow hij
        omega
      · have := hr.follow hij
        omega
      · have := hl.last hi
        have := hr.first hj
        omega
  | star r, n => by
    have hr := positions_within r n
    constructor
    case first => exact hr.first
    case last => exact hr.last
    case follow =>
      intro i j hij
      rcases mem_follow_star.mp hij with hij | ⟨hi, hj⟩
      · exact hr.follow hij
      · exact ⟨hr.last hi, hr.first hj⟩

/-- The symbol at a position, if there is one. -/
def leafAt (r : Regex) (n i : Nat) : Option Char := r.leaves[i - n - 1]?

theorem leafAt_append_left {xs ys : List Char} (hn : n < i) (hi : i ≤ n + xs.length) :
    (xs ++ ys)[i - n - 1]? = xs[i - n - 1]? :=
  List.getElem?_append_left (by omega)

theorem leafAt_append_right {xs ys : List Char} (hi : n + xs.length < i) :
    (xs ++ ys)[i - n - 1]? = ys[i - (n + xs.length) - 1]? := by
  rw [List.getElem?_append_right (by omega)]
  congr 1
  omega

/-! ## What may follow a position -/

/-- The words that may follow when a position has just been read. -/
def afterPosition : Regex → Nat → Nat → Language
  | epsilon, _, _ => fun _ => False
  | symbol _, _, _ => fun w => w = []
  | union l r, n, i =>
    let left := l.positions n
    if i ≤ left.count then l.afterPosition n i else r.afterPosition left.count i
  | concat l r, n, i =>
    let left := l.positions n
    if i ≤ left.count then followedBy (l.afterPosition n i) r.Matches
    else r.afterPosition left.count i
  | star r, n, i => followedBy (r.afterPosition n i) (star r).Matches

theorem afterPosition_union_left (hi : i ≤ (l.positions n).count) :
    (union l r).afterPosition n i = l.afterPosition n i := if_pos hi

theorem afterPosition_union_right (hi : (l.positions n).count < i) :
    (union l r).afterPosition n i = r.afterPosition (l.positions n).count i :=
  if_neg (Nat.not_le_of_lt hi)

theorem afterPosition_concat_left (hi : i ≤ (l.positions n).count) :
    (concat l r).afterPosition n i = followedBy (l.afterPosition n i) r.Matches := if_pos hi

theorem afterPosition_concat_right (hi : (l.positions n).count < i) :
    (concat l r).afterPosition n i = r.afterPosition (l.positions n).count i :=
  if_neg (Nat.not_le_of_lt hi)

/-- The word `c :: v` can be read from the position on. -/
def Reads (r : Regex) (n i : Nat) (c : Char) (v : Word) : Prop :=
  r.leafAt n i = some c ∧ r.afterPosition n i v

theorem reads_union_left (hn : n < i) (hi : i ≤ (l.positions n).count) :
    (union l r).Reads n i c v ↔ l.Reads n i c v := by
  have hcount := count_positions l n
  rw [Reads, afterPosition_union_left hi, leafAt, leaves, leafAt_append_left hn (by omega)]
  exact Iff.rfl

theorem reads_union_right (hi : (l.positions n).count < i) :
    (union l r).Reads n i c v ↔ r.Reads (l.positions n).count i c v := by
  have hcount := count_positions l n
  rw [Reads, afterPosition_union_right hi, leafAt, leaves, leafAt_append_right (by omega), ← hcount]
  exact Iff.rfl

theorem reads_concat_left (hn : n < i) (hi : i ≤ (l.positions n).count) :
    (concat l r).Reads n i c v ↔ followedBy (l.Reads n i c) r.Matches v := by
  have hcount := count_positions l n
  rw [Reads, afterPosition_concat_left hi, leafAt, leaves, leafAt_append_left hn (by omega)]
  exact followedBy_and.symm

theorem reads_concat_right (hi : (l.positions n).count < i) :
    (concat l r).Reads n i c v ↔ r.Reads (l.positions n).count i c v := by
  have hcount := count_positions l n
  rw [Reads, afterPosition_concat_right hi, leafAt, leaves, leafAt_append_right (by omega),
    ← hcount]
  exact Iff.rfl

theorem reads_star : (star r).Reads n i c v ↔ followedBy (r.Reads n i c) (star r).Matches v :=
  followedBy_and.symm

/-- **A word starts at one of the first positions.** -/
theorem matches_cons_iff_first : ∀ {r : Regex} {n : Nat} {c : Char} {v : Word},
    r.Matches (c :: v) ↔ ∃ i ∈ (r.positions n).first, r.Reads n i c v
  | epsilon, n, c, v => by simp [positions]
  | symbol d, n, c, v => by simp [positions, Reads, leafAt, leaves, afterPosition, eq_comm]
  | union l r, n, c, v => by
    have hl := positions_within l n
    have hr := positions_within r (l.positions n).count
    rw [matches_union, matches_cons_iff_first (r := l) (n := n),
      matches_cons_iff_first (r := r) (n := (l.positions n).count)]
    constructor
    · rintro (⟨i, hi, h⟩ | ⟨i, hi, h⟩)
      · have hb := hl.first hi
        exact ⟨i, mem_first_union.mpr (Or.inl hi), (reads_union_left hb.1 hb.2).mpr h⟩
      · have hb := hr.first hi
        exact ⟨i, mem_first_union.mpr (Or.inr hi), (reads_union_right hb.1).mpr h⟩
    · rintro ⟨i, hi, h⟩
      rcases mem_first_union.mp hi with hi | hi
      · have hb := hl.first hi
        exact Or.inl ⟨i, hi, (reads_union_left hb.1 hb.2).mp h⟩
      · have hb := hr.first hi
        exact Or.inr ⟨i, hi, (reads_union_right hb.1).mp h⟩
  | concat l r, n, c, v => by
    have hl := positions_within l n
    have hr := positions_within r (l.positions n).count
    simp only [matches_concat_cons, matches_cons_iff_first (r := l) (n := n), followedBy_exists,
      followedBy_and, matches_cons_iff_first (r := r) (n := (l.positions n).count)]
    constructor
    · rintro (⟨hn, i, hi, h⟩ | ⟨i, hi, h⟩)
      · have hb := hr.first hi
        exact ⟨i, mem_first_concat.mpr (Or.inr ⟨hn, hi⟩), (reads_concat_right hb.1).mpr h⟩
      · have hb := hl.first hi
        exact ⟨i, mem_first_concat.mpr (Or.inl hi), (reads_concat_left hb.1 hb.2).mpr h⟩
    · rintro ⟨i, hi, h⟩
      rcases mem_first_concat.mp hi with hi | ⟨hn, hi⟩
      · have hb := hl.first hi
        exact Or.inr ⟨i, hi, (reads_concat_left hb.1 hb.2).mp h⟩
      · have hb := hr.first hi
        exact Or.inl ⟨hn, i, hi, (reads_concat_right hb.1).mp h⟩
  | star r, n, c, v => by
    simp only [matches_star_cons, matches_cons_iff_first (r := r) (n := n), followedBy_exists,
      followedBy_and, reads_star]
    exact Iff.rfl

/-- **Behind a position the word may end** iff this is one of the last positions. -/
theorem afterPosition_nil_iff_last : ∀ {r : Regex} {n i : Nat}, n < i → i ≤ (r.positions n).count →
    (r.afterPosition n i [] ↔ i ∈ (r.positions n).last)
  | epsilon, n, i, hn, hi => by
    simp only [positions] at hi
    omega
  | symbol c, n, i, hn, hi => by
    simp only [positions] at hi ⊢
    simp only [afterPosition, List.mem_singleton, true_iff]
    omega
  | union l r, n, i, hn, hi => by
    have hl := positions_within l n
    have hr := positions_within r (l.positions n).count
    rw [mem_last_union]
    by_cases h : i ≤ (l.positions n).count
    · rw [afterPosition_union_left h, afterPosition_nil_iff_last hn h]
      exact (or_iff_left fun hi => absurd (hr.last hi).1 (by omega)).symm
    · rw [afterPosition_union_right (by omega), afterPosition_nil_iff_last (r := r) (by omega) hi]
      exact (or_iff_right fun hi => h (hl.last hi).2).symm
  | concat l r, n, i, hn, hi => by
    have hl := positions_within l n
    have hr := positions_within r (l.positions n).count
    rw [mem_last_concat]
    by_cases h : i ≤ (l.positions n).count
    · rw [afterPosition_concat_left h, followedBy_nil, afterPosition_nil_iff_last hn h,
        matches_nil, and_comm]
      exact (or_iff_left fun hi => absurd (hr.last hi).1 (by omega)).symm
    · rw [afterPosition_concat_right (by omega), afterPosition_nil_iff_last (r := r) (by omega) hi]
      exact (or_iff_right fun hi => h (hl.last hi.2).2).symm
  | star r, n, i, hn, hi => by
    rw [afterPosition, followedBy_nil, afterPosition_nil_iff_last (r := r) hn hi]
    exact and_iff_left .starNil

/-- **Behind a position the word goes on** at one that may follow. -/
theorem afterPosition_cons_iff_follow : ∀ {r : Regex} {n i : Nat} {c : Char} {v : Word}, n < i →
    i ≤ (r.positions n).count →
    (r.afterPosition n i (c :: v) ↔ ∃ j, (i, j) ∈ (r.positions n).follow ∧ r.Reads n j c v)
  | epsilon, n, i, c, v, hn, hi => by
    simp only [positions] at hi
    omega
  | symbol d, n, i, c, v, hn, hi => by simp [positions, afterPosition]
  | union l r, n, i, c, v, hn, hi => by
    have hl := positions_within l n
    have hr := positions_within r (l.positions n).count
    by_cases h : i ≤ (l.positions n).count
    · rw [afterPosition_union_left h, afterPosition_cons_iff_follow hn h]
      constructor
      · rintro ⟨j, hij, hj⟩
        have hb := (hl.follow hij).2
        exact ⟨j, mem_follow_union.mpr (Or.inl hij), (reads_union_left hb.1 hb.2).mpr hj⟩
      · rintro ⟨j, hij, hj⟩
        rcases mem_follow_union.mp hij with hij | hij
        · have hb := (hl.follow hij).2
          exact ⟨j, hij, (reads_union_left hb.1 hb.2).mp hj⟩
        · exact absurd (hr.follow hij).1.1 (by omega)
    · rw [afterPosition_union_right (by omega),
        afterPosition_cons_iff_follow (r := r) (by omega) hi]
      constructor
      · rintro ⟨j, hij, hj⟩
        have hb := (hr.follow hij).2
        exact ⟨j, mem_follow_union.mpr (Or.inr hij), (reads_union_right hb.1).mpr hj⟩
      · rintro ⟨j, hij, hj⟩
        rcases mem_follow_union.mp hij with hij | hij
        · exact absurd (hl.follow hij).1.2 h
        · have hb := (hr.follow hij).2
          exact ⟨j, hij, (reads_union_right hb.1).mp hj⟩
  | concat l r, n, i, c, v, hn, hi => by
    have hl := positions_within l n
    have hr := positions_within r (l.positions n).count
    by_cases h : i ≤ (l.positions n).count
    · simp only [afterPosition_concat_left h, followedBy_cons, afterPosition_nil_iff_last hn h,
        afterPosition_cons_iff_follow hn h, followedBy_exists, followedBy_and,
        matches_cons_iff_first (r := r) (n := (l.positions n).count)]
      constructor
      · rintro (⟨hlast, j, hj, hv⟩ | ⟨j, hij, hv⟩)
        · have hb := hr.first hj
          exact ⟨j, mem_follow_concat.mpr (Or.inr ⟨hlast, hj⟩), (reads_concat_right hb.1).mpr hv⟩
        · have hb := (hl.follow hij).2
          exact ⟨j, mem_follow_concat.mpr (Or.inl (Or.inl hij)),
            (reads_concat_left hb.1 hb.2).mpr hv⟩
      · rintro ⟨j, hij, hv⟩
        rcases mem_follow_concat.mp hij with (hij | hij) | ⟨hlast, hj⟩
        · have hb := (hl.follow hij).2
          exact Or.inr ⟨j, hij, (reads_concat_left hb.1 hb.2).mp hv⟩
        · exact absurd (hr.follow hij).1.1 (by omega)
        · have hb := hr.first hj
          exact Or.inl ⟨hlast, j, hj, (reads_concat_right hb.1).mp hv⟩
    · rw [afterPosition_concat_right (by omega),
        afterPosition_cons_iff_follow (r := r) (by omega) hi]
      constructor
      · rintro ⟨j, hij, hv⟩
        have hb := (hr.follow hij).2
        exact ⟨j, mem_follow_concat.mpr (Or.inl (Or.inr hij)), (reads_concat_right hb.1).mpr hv⟩
      · rintro ⟨j, hij, hv⟩
        rcases mem_follow_concat.mp hij with (hij | hij) | ⟨hlast, hj⟩
        · exact absurd (hl.follow hij).1.2 h
        · have hb := (hr.follow hij).2
          exact ⟨j, hij, (reads_concat_right hb.1).mp hv⟩
        · exact absurd (hl.last hlast).2 h
  | star r, n, i, c, v, hn, hi => by
    simp only [afterPosition, followedBy_cons, afterPosition_nil_iff_last (r := r) hn hi,
      afterPosition_cons_iff_follow (r := r) hn hi, matches_star_cons, followedBy_exists,
      followedBy_and, matches_cons_iff_first (r := r) (n := n), mem_follow_star, reads_star]
    constructor
    · rintro (⟨hlast, j, hj, hv⟩ | ⟨j, hij, hv⟩)
      · exact ⟨j, Or.inr ⟨hlast, hj⟩, hv⟩
      · exact ⟨j, Or.inl hij, hv⟩
    · rintro ⟨j, hij | ⟨hlast, hj⟩, hv⟩
      · exact Or.inr ⟨j, hij, hv⟩
      · exact Or.inl ⟨hlast, j, hj, hv⟩

/-! ## The automaton -/

/-- The state of a position; the initial state is numbered 0. -/
abbrev placed (i : Nat) : State := State.numbered "q" i

/-- A transition enters a first position from the initial state, or a position from one that it
may follow, and carries the symbol of the position that it enters. -/
theorem mem_edges_glushkov {e : Edge} :
    e ∈ r.glushkov.edges ↔
      ∃ i j c, (i = 0 ∧ j ∈ (r.positions 0).first ∨ (i, j) ∈ (r.positions 0).follow) ∧
        r.leafAt 0 j = some c ∧ e = ⟨placed i, .symbol c, placed j⟩ := by
  simp only [glushkov, OrderedSet.mem_ofList, List.mem_append, List.mem_flatMap, List.mem_map,
    Option.mem_toList, List.getElem?_toArray, Prod.exists, leafAt, Nat.sub_zero]
  constructor
  · rintro (⟨j, hj, c, hc, rfl⟩ | ⟨i, j, hij, c, hc, rfl⟩)
    · exact ⟨0, j, c, Or.inl ⟨rfl, hj⟩, hc, rfl⟩
    · exact ⟨i, j, c, Or.inr hij, hc, rfl⟩
  · rintro ⟨i, j, c, ⟨rfl, hj⟩ | hij, hc, rfl⟩
    · exact Or.inl ⟨j, hj, c, hc, rfl⟩
    · exact Or.inr ⟨i, j, hij, c, hc, rfl⟩

theorem not_epsilon_glushkov : ∀ p q, ⟨p, .epsilon, q⟩ ∉ r.glushkov.edges := by
  intro p q he
  obtain ⟨i, j, c, _, _, h⟩ := mem_edges_glushkov.mp he
  exact absurd (congrArg Edge.label h) (by simp)

theorem mem_finals_glushkov :
    placed i ∈ r.glushkov.finals ↔ i = 0 ∧ r.nullable = true ∨ i ∈ (r.positions 0).last := by
  have hplaced {i j : Nat} : placed i = placed j ↔ i = j :=
    ⟨State.numbered_injective, congrArg placed⟩
  simp only [glushkov, OrderedSet.mem_ofList, List.mem_map, List.mem_append, nullable_positions]
  constructor
  · rintro ⟨j, hj, h⟩
    obtain rfl := hplaced.mp h
    rcases hj with hj | hj
    · by_cases hn : r.nullable = true
      · rw [if_pos hn, List.mem_singleton] at hj
        exact Or.inl ⟨hj, hn⟩
      · rw [if_neg hn] at hj
        exact absurd hj List.not_mem_nil
    · exact Or.inr hj
  · rintro (⟨rfl, hn⟩ | hi)
    · exact ⟨0, Or.inl (by simp [hn]), rfl⟩
    · exact ⟨i, Or.inr hi, rfl⟩

theorem languageFrom_placed_cons :
    r.glushkov.languageFrom (placed i) (c :: w) ↔
      ∃ j, (i = 0 ∧ j ∈ (r.positions 0).first ∨ (i, j) ∈ (r.positions 0).follow) ∧
        r.leafAt 0 j = some c ∧ r.glushkov.languageFrom (placed j) w := by
  rw [Automaton.languageFrom_cons_of_epsilonFree not_epsilon_glushkov]
  constructor
  · rintro ⟨q, he, hw⟩
    obtain ⟨i', j, d, hij, hd, h⟩ := mem_edges_glushkov.mp he
    obtain ⟨hi, hc, rfl⟩ := Edge.mk.inj h
    cases hc
    obtain rfl : i = i' := State.numbered_injective hi
    exact ⟨j, hij, hd, hw⟩
  · rintro ⟨j, hij, hd, hw⟩
    exact ⟨placed j, mem_edges_glushkov.mpr ⟨i, j, c, hij, hd, rfl⟩, hw⟩

/-- From the state of a position, what may follow the position is accepted. -/
theorem languageFrom_placed_iff : ∀ (w : Word) {i : Nat}, 0 < i → i ≤ (r.positions 0).count →
    (r.glushkov.languageFrom (placed i) w ↔ r.afterPosition 0 i w)
  | [], i, hn, hi => by
    rw [Automaton.languageFrom_nil_of_epsilonFree not_epsilon_glushkov, mem_finals_glushkov,
      afterPosition_nil_iff_last hn hi]
    exact or_iff_right fun h => absurd h.1 (by omega)
  | c :: w, i, hn, hi => by
    rw [languageFrom_placed_cons, afterPosition_cons_iff_follow hn hi]
    refine exists_congr fun j => ?_
    have hstart : ¬ (i = 0 ∧ j ∈ (r.positions 0).first) := fun h => absurd h.1 (by omega)
    rw [or_iff_right hstart]
    refine and_congr_right fun hij => and_congr_right fun _ => ?_
    have hb := ((positions_within r 0).follow hij).2
    exact languageFrom_placed_iff w hb.1 hb.2

/-- **The position automaton accepts exactly the words of the expression.** -/
theorem accepts_glushkov_iff : r.glushkov.accepts w = true ↔ r.Matches w := by
  have hwithin := positions_within r 0
  rw [Automaton.accepts_iff, Automaton.language_eq_languageFrom (p := placed 0) rfl]
  cases w with
  | nil =>
    rw [Automaton.languageFrom_nil_of_epsilonFree not_epsilon_glushkov, mem_finals_glushkov,
      matches_nil, or_iff_left fun h => absurd (hwithin.last h).1 (by omega)]
    exact and_iff_right rfl
  | cons c w =>
    rw [languageFrom_placed_cons, matches_cons_iff_first (n := 0)]
    refine exists_congr fun j => ?_
    have hstart : (0, j) ∉ (r.positions 0).follow := fun h =>
      absurd (hwithin.follow h).1.1 (by omega)
    rw [or_iff_left hstart, and_iff_right rfl]
    refine and_congr_right fun hj => and_congr_right fun _ => ?_
    have hb := hwithin.first hj
    exact languageFrom_placed_iff w hb.1 hb.2

/-- There is a state for the start and one for each occurrence of a symbol. -/
theorem states_glushkov (r : Regex) :
    r.glushkov.states = .ofList ((List.range (r.leaves.length + 1)).map placed) := by
  rw [glushkov, count_positions, Nat.zero_add]

theorem size_glushkov (r : Regex) : r.glushkov.size = r.leaves.length + 1 := by
  have hn : ((List.range (r.leaves.length + 1)).map placed).Nodup :=
    List.Nodup.map (fun _ _ => State.numbered_injective) List.nodup_range
  rw [Automaton.size, states_glushkov, OrderedSet.size_ofList hn, List.length_map,
    List.length_range]

/-- A transition enters the state of a position and carries the symbol that occurs there. -/
theorem edge_glushkov {e : Edge} (he : e ∈ r.glushkov.edges) :
    ∃ i c, e.target = placed (i + 1) ∧ r.leaves[i]? = some c ∧ e.label = .symbol c := by
  obtain ⟨i, j, c, hij, hc, rfl⟩ := mem_edges_glushkov.mp he
  have hj : 0 < j := by
    rcases hij with ⟨-, hj⟩ | hij
    · exact ((positions_within r 0).first hj).1
    · exact ((positions_within r 0).follow hij).2.1
  have hpred : j - 1 + 1 = j := by omega
  exact ⟨j - 1, c, by rw [hpred], hc, rfl⟩

/-- **The position automaton** accepts exactly the words of the expression. Its states are `q0`,
which is initial, and one for each occurrence of a symbol. No transition is on the empty word or
enters `q0`, and those that enter the state of an occurrence carry its symbol. -/
theorem glushkov_accepts_iff_and_positions (r : Regex) :
    (∀ w, r.glushkov.accepts w = true ↔ r.Matches w) ∧
      r.glushkov.states = .ofList ((List.range (r.leaves.length + 1)).map (State.numbered "q")) ∧
      r.glushkov.size = r.leaves.length + 1 ∧
      r.glushkov.initial = some (State.numbered "q" 0) ∧
      ∀ e ∈ r.glushkov.edges, e.label ≠ .epsilon ∧ e.target ≠ State.numbered "q" 0 ∧
        ∀ i, e.target = State.numbered "q" (i + 1) →
          ∃ c, r.leaves[i]? = some c ∧ e.label = .symbol c := by
  refine ⟨fun _ => accepts_glushkov_iff, states_glushkov r, size_glushkov r, rfl, fun e he => ?_⟩
  obtain ⟨i, c, htarget, hleaf, hlabel⟩ := edge_glushkov he
  refine ⟨by simp [hlabel], fun hstart => ?_, fun j hj => ⟨c, ?_, hlabel⟩⟩
  · have hi := State.numbered_injective (htarget.symm.trans hstart)
    omega
  · have hi := State.numbered_injective (htarget.symm.trans hj)
    rwa [← Nat.succ.inj hi]

end RegularLanguages.Regex
