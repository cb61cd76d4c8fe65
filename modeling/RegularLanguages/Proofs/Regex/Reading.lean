import RegularLanguages.Proofs.Regex.Simplification

/-!
# Reading a word of an expression symbol by symbol

What the first symbol of a word does to a concatenation and to a repetition: it belongs to the
first part that does not read the empty word.

The symbols of an expression are those of its words: no part of an expression denotes the empty
language, so every occurrence of a symbol is read by some word.

Results:
* `followedBy_nil`, `followedBy_cons`: one language behind the other.
* **`matches_concat_cons`**, **`matches_star_cons`**: the words that start with a given symbol.
* `mem_leaves_of_matches`, `exists_matches_of_mem_leaves`: the symbols of the words.
-/

namespace RegularLanguages

variable {L L' M : Language} {u v w : Word} {c : Char}

/-- The words that consist of a word of each of the two languages. -/
def followedBy (L M : Language) : Language := fun w => ∃ u v, L u ∧ M v ∧ u ++ v = w

theorem followedBy_nil : followedBy L M [] ↔ L [] ∧ M [] := by
  constructor
  · rintro ⟨u, v, hu, hv, h⟩
    obtain ⟨rfl, rfl⟩ := List.append_eq_nil_iff.mp h
    exact ⟨hu, hv⟩
  · rintro ⟨hu, hv⟩
    exact ⟨[], [], hu, hv, rfl⟩

theorem followedBy_cons :
    followedBy L M (c :: w) ↔ L [] ∧ M (c :: w) ∨ followedBy (fun u => L (c :: u)) M w := by
  constructor
  · rintro ⟨u, v, hu, hv, h⟩
    cases u with
    | nil =>
      subst h
      exact Or.inl ⟨hu, hv⟩
    | cons d u =>
      obtain ⟨rfl, rfl⟩ := List.cons_eq_cons.mp h
      exact Or.inr ⟨u, v, hu, hv, rfl⟩
  · rintro (⟨hu, hv⟩ | ⟨u, v, hu, hv, rfl⟩)
    · exact ⟨[], c :: w, hu, hv, rfl⟩
    · exact ⟨c :: u, v, hu, hv, rfl⟩

/-- A word in front of all words of the first language is in front of those of both. -/
theorem followedBy_append (h : ∀ u, L u → L' (v ++ u)) (hw : followedBy L M w) :
    followedBy L' M (v ++ w) := by
  obtain ⟨x, y, hx, hy, rfl⟩ := hw
  exact ⟨v ++ x, y, h x hx, hy, List.append_assoc v x y⟩

theorem followedBy_exists {α : Type} {L : α → Language} :
    followedBy (fun u => ∃ x, L x u) M w ↔ ∃ x, followedBy (L x) M w := by
  constructor
  · rintro ⟨u, v, ⟨x, hu⟩, hv, rfl⟩
    exact ⟨x, u, v, hu, hv, rfl⟩
  · rintro ⟨x, u, v, hu, hv, rfl⟩
    exact ⟨u, v, ⟨x, hu⟩, hv, rfl⟩

theorem followedBy_and {P : Prop} :
    followedBy (fun u => P ∧ L u) M w ↔ P ∧ followedBy L M w := by
  constructor
  · rintro ⟨u, v, ⟨hp, hu⟩, hv, rfl⟩
    exact ⟨hp, u, v, hu, hv, rfl⟩
  · rintro ⟨hp, u, v, hu, hv, rfl⟩
    exact ⟨u, v, ⟨hp, hu⟩, hv, rfl⟩

namespace Regex

variable {l r : Regex}

theorem matches_concat_cons :
    (concat l r).Matches (c :: w) ↔
      l.nullable = true ∧ r.Matches (c :: w) ∨
        followedBy (fun u => l.Matches (c :: u)) r.Matches w := by
  rw [← matches_nil, ← followedBy_cons]
  exact matches_concat

/-- A repetition that reads a symbol reads a nonempty word of the operand first. -/
theorem matches_star_cons :
    (star r).Matches (c :: w) ↔ followedBy (fun u => r.Matches (c :: u)) (star r).Matches w := by
  constructor
  · intro h
    generalize hv : c :: w = v at h
    induction h using Matches.star_induction with
    | nil => exact absurd hv (by simp)
    | append x y hx hy ih =>
      cases x with
      | nil => exact ih hv
      | cons d x =>
        obtain ⟨rfl, rfl⟩ := List.cons_eq_cons.mp hv
        exact ⟨x, y, hx, hy, rfl⟩
  · rintro ⟨u, v, hu, hv, rfl⟩
    exact .starAppend (u := c :: u) hu hv

/-! ## The symbols of the words -/

theorem mem_leaves_of_matches (h : r.Matches w) : ∀ c ∈ w, c ∈ r.leaves := by
  induction h with
  | epsilon => simp
  | symbol c => simp [leaves]
  | unionLeft _ ih => exact fun c hc => List.mem_append_left _ (ih c hc)
  | unionRight _ ih => exact fun c hc => List.mem_append_right _ (ih c hc)
  | concat _ _ ihl ihr =>
    intro c hc
    rcases List.mem_append.mp hc with hc | hc
    · exact List.mem_append_left _ (ihl c hc)
    · exact List.mem_append_right _ (ihr c hc)
  | starNil => simp
  | starAppend _ _ ihu ihv =>
    intro c hc
    rcases List.mem_append.mp hc with hc | hc
    · exact ihu c hc
    · exact ihv c hc

/-- Every occurrence of a symbol is read by some word. -/
theorem exists_matches_of_mem_leaves : ∀ {r : Regex}, c ∈ r.leaves → ∃ w, r.Matches w ∧ c ∈ w
  | symbol d, h => by
    rw [leaves, List.mem_singleton] at h
    exact ⟨[d], .symbol d, by simp [h]⟩
  | union l r, h => by
    rcases List.mem_append.mp h with h | h
    · obtain ⟨w, hw, hc⟩ := exists_matches_of_mem_leaves h
      exact ⟨w, .unionLeft hw, hc⟩
    · obtain ⟨w, hw, hc⟩ := exists_matches_of_mem_leaves h
      exact ⟨w, .unionRight hw, hc⟩
  | concat l r, h => by
    rcases List.mem_append.mp h with h | h
    · obtain ⟨u, hu, hc⟩ := exists_matches_of_mem_leaves h
      obtain ⟨v, hv⟩ := exists_matches r
      exact ⟨u ++ v, .concat hu hv, List.mem_append_left v hc⟩
    · obtain ⟨u, hu⟩ := exists_matches l
      obtain ⟨v, hv, hc⟩ := exists_matches_of_mem_leaves h
      exact ⟨u ++ v, .concat hu hv, List.mem_append_right u hc⟩
  | star r, h => by
    obtain ⟨w, hw, hc⟩ := exists_matches_of_mem_leaves (r := r) h
    exact ⟨w ++ [], .starAppend hw .starNil, List.mem_append_left [] hc⟩

end Regex

end RegularLanguages
