import RegularLanguages.Proofs.Automaton.Repetitions

/-!
# The simplifying constructors, whatever their operands are

A constructor looks at the union terms of its operands and may return one of them, or take an
operand apart and put it together again. None of this rests on how the operands have been built:
each constructor denotes the operation on languages that it is named for.

A repetition is `ε` or a star in its outermost place, and both are their own repetition.

Results:
* `matches_star_iff_repeated`: a star denotes any number of words of its operand.
* `iterate_cases`, `iterate_iterate`: the shape of a repetition.
* **`constructors_denote`**: what all of them denote.
-/

namespace RegularLanguages.Regex

variable {r : Regex} {w : Word}

/-- A star denotes any number of words of its operand, one behind the other. -/
theorem matches_star_iff_repeated : (star r).Matches w ↔ repeated r.Matches w := by
  constructor
  · intro h
    induction h using Matches.star_induction with
    | nil => exact repeated_nil _
    | append u v hu _ ih => exact repeated_of_followedBy ⟨u, v, hu, ih, rfl⟩
  · rintro ⟨ws, hws, rfl⟩
    induction ws with
    | nil => exact .starNil
    | cons u ws ih =>
      obtain ⟨hu, hws⟩ := List.forall_mem_cons.mp hws
      exact .starAppend hu (ih hws)

theorem uniteAll_eq_none_iff {rs : List Regex} : uniteAll rs = none ↔ rs = [] := by
  cases rs <;> simp [uniteAll]

/-! ## The shape of repetitions -/

theorem iterate_cases (r : Regex) : r.iterate = epsilon ∨ ∃ s, r.iterate = star s := by
  unfold iterate
  split
  · exact .inl rfl
  · exact .inr ⟨_, rfl⟩
  · exact .inr ⟨_, rfl⟩

@[simp] theorem iterate_epsilon : epsilon.iterate = epsilon := rfl

/-- A star is the only one of its union terms, and no further star is put on it. -/
@[simp] theorem iterate_star (r : Regex) : (star r).iterate = star r := rfl

/-- **Repeating a repetition** changes nothing. -/
@[simp] theorem iterate_iterate (r : Regex) : r.iterate.iterate = r.iterate := by
  rcases iterate_cases r with h | ⟨s, h⟩
  · rw [h, iterate_epsilon]
  · rw [h, iterate_star]

/-! ## All constructors -/

/-- **What the constructors denote**, whatever their operands are. The union of a list is missing
exactly if the list has no entries. A repetition is `ε` or a star, and its own repetition. -/
theorem constructors_denote (l r : Regex) (rs : List Regex) :
    (∀ w, (l.unite r).Matches w ↔ l.Matches w ∨ r.Matches w) ∧
    (∀ w, (l.append r).Matches w ↔ followedBy l.Matches r.Matches w) ∧
    (∀ w, r.iterate.Matches w ↔ repeated r.Matches w) ∧
    (uniteAll rs = none ↔ rs = []) ∧
    (∀ w, languageOf (uniteAll rs) w ↔ ∃ t ∈ rs, t.Matches w) ∧
    (r.iterate = epsilon ∨ ∃ s, r.iterate = star s) ∧
    r.iterate.iterate = r.iterate := by
  refine ⟨fun w => matches_unite, fun w => matches_append, fun w => ?_, uniteAll_eq_none_iff,
    fun w => matches_uniteAll, iterate_cases r, iterate_iterate r⟩
  rw [matches_iterate, matches_star_iff_repeated]

/-- An operand that no constructor has built: `ε` stands twice in it, under a star as well. -/
example : (union epsilon (union (star epsilon) epsilon)).iterate = star epsilon := by decide

end RegularLanguages.Regex
