import Mathlib.Data.Char
import Mathlib.Data.List.Shortlex
import RegularLanguages.Proofs.OrderedSet
import RegularLanguages.Word

/-!
# Words in length-lexicographic order

The lists of words that the searches go through contain every word over the symbols up to the
given length, in strictly increasing shortlex order. So the first word found is the least one.

Results:
* `mem_ofLength`, **`mem_upTo`**: which words are listed.
* `sorted_ofLength`, **`sorted_upTo`**: in which order.
* **`findUpTo?_eq_some_iff`**, `findUpTo?_eq_none_iff`: what the search finds.
-/

namespace RegularLanguages

/-- The first entry of an increasing list that has a property is the least one that has it. -/
theorem find?_eq_some_iff_least {α : Type} {R : α → α → Prop} [Std.Asymm R] {p : α → Bool}
    {l : List α} (hl : l.Pairwise R) {x : α} :
    l.find? p = some x ↔ x ∈ l ∧ p x = true ∧ ∀ y ∈ l, p y = true → y = x ∨ R x y := by
  have hleast {x : α} (h : l.find? p = some x) : ∀ y ∈ l, p y = true → y = x ∨ R x y := by
    obtain ⟨_, before, behind, rfl, hbefore⟩ := List.find?_eq_some_iff_append.mp h
    intro y hy hpy
    rcases List.mem_append.mp hy with hy | hy
    · have hn := hbefore y hy
      rw [hpy] at hn
      exact absurd hn (by simp)
    · rcases List.mem_cons.mp hy with rfl | hy
      · exact Or.inl rfl
      · exact Or.inr (List.rel_of_pairwise_cons (List.pairwise_append.mp hl).2.1 hy)
  constructor
  · intro h
    exact ⟨List.mem_of_find?_eq_some h, List.find?_some h, hleast h⟩
  · rintro ⟨hx, hpx, hmin⟩
    cases h : l.find? p with
    | none => exact absurd hpx (List.find?_eq_none.mp h x hx)
    | some y =>
      have hy : y ∈ l := List.mem_of_find?_eq_some h
      rcases hmin y hy (List.find?_some h) with rfl | hxy
      · rfl
      · rcases hleast h x hx hpx with rfl | hyx
        · rfl
        · exact absurd hxy (Std.Asymm.asymm _ _ hyx)

namespace Word

variable {symbols : OrderedSet Char} {n : Nat} {w : Word} {p : Word → Bool}

/-- Every symbol of the word is in the set. -/
def Over (symbols : OrderedSet Char) (w : Word) : Prop := ∀ c ∈ w, c ∈ symbols

theorem over_cons {c : Char} : Over symbols (c :: w) ↔ c ∈ symbols ∧ Over symbols w :=
  List.forall_mem_cons

/-! ## The listed words -/

theorem mem_ofLength : ∀ {n : Nat} {w : Word},
    w ∈ ofLength symbols n ↔ w.length = n ∧ Over symbols w
  | 0, w => by
    rw [ofLength, List.mem_singleton, List.length_eq_zero_iff]
    constructor
    · rintro rfl
      exact ⟨rfl, fun c hc => absurd hc List.not_mem_nil⟩
    · exact And.left
  | n + 1, w => by
    simp only [ofLength, List.mem_flatMap, List.mem_map, mem_ofLength (n := n)]
    constructor
    · rintro ⟨c, hc, v, ⟨rfl, hv⟩, rfl⟩
      exact ⟨rfl, over_cons.mpr ⟨hc, hv⟩⟩
    · rintro ⟨hn, hw⟩
      cases w with
      | nil => simp at hn
      | cons c v =>
        obtain ⟨hc, hv⟩ := over_cons.mp hw
        exact ⟨c, hc, v, ⟨Nat.succ.inj hn, hv⟩, rfl⟩

/-- Without symbols there is only the empty word, so that a length above 0 adds nothing. -/
theorem length_le_greatestLength (hw : Over symbols w) :
    w.length ≤ greatestLength symbols n ↔ w.length ≤ n := by
  unfold greatestLength
  by_cases h : symbols.isEmpty = true
  · rw [if_pos h]
    cases w with
    | nil => simp
    | cons c v => exact absurd (over_cons.mp hw).1 (OrderedSet.isEmpty_iff.mp h c)
  · rw [if_neg h]

/-- **The words up to a length** are those over the symbols that are not longer. -/
theorem mem_upTo : w ∈ upTo symbols n ↔ w.length ≤ n ∧ Over symbols w := by
  simp only [upTo, List.mem_flatMap, List.mem_range, mem_ofLength]
  constructor
  · rintro ⟨k, hk, rfl, hw⟩
    exact ⟨(length_le_greatestLength hw).mp (Nat.le_of_lt_succ hk), hw⟩
  · rintro ⟨hn, hw⟩
    exact ⟨w.length, Nat.lt_succ_of_le ((length_le_greatestLength hw).mpr hn), rfl, hw⟩

/-! ## Their order -/

/-- Words of one length are compared symbol by symbol. -/
theorem sorted_ofLength (symbols : OrderedSet Char) : ∀ n : Nat,
    (ofLength symbols n).Pairwise (List.Shortlex (· < ·))
  | 0 => List.pairwise_singleton _ _
  | n + 1 => by
    rw [ofLength, List.pairwise_flatMap]
    constructor
    · intro c _
      rw [List.pairwise_map]
      exact (sorted_ofLength symbols n).imp List.Shortlex.cons
    · refine symbols.sorted.imp fun {c d} hcd => ?_
      intro cu hcu dv hdv
      obtain ⟨u, hu, rfl⟩ := List.mem_map.mp hcu
      obtain ⟨v, hv, rfl⟩ := List.mem_map.mp hdv
      have hlength : u.length = v.length :=
        (mem_ofLength.mp hu).1.trans (mem_ofLength.mp hv).1.symm
      exact .of_lex (by simp [hlength]) (.rel (compare_lt_iff_lt.mp hcd))

/-- **The words up to a length are listed in shortlex order**, so none is listed twice. -/
theorem sorted_upTo (symbols : OrderedSet Char) (n : Nat) :
    (upTo symbols n).Pairwise (List.Shortlex (· < ·)) := by
  rw [upTo, List.pairwise_flatMap]
  constructor
  · exact fun k _ => sorted_ofLength symbols k
  · refine List.pairwise_lt_range.imp fun {j k} hjk => ?_
    intro u hu v hv
    refine .of_length_lt ?_
    rw [(mem_ofLength.mp hu).1, (mem_ofLength.mp hv).1]
    exact hjk

/-! ## Searching -/

/-- **The search finds the least word** over the symbols that has the property, if there is one
up to the given length. -/
theorem findUpTo?_eq_some_iff :
    findUpTo? symbols n p = some w ↔
      (w.length ≤ n ∧ Over symbols w) ∧ p w = true ∧
        ∀ v : Word, v.length ≤ n → Over symbols v → p v = true →
          v = w ∨ List.Shortlex (· < ·) w v := by
  rw [findUpTo?_eq_find?, find?_eq_some_iff_least (sorted_upTo symbols n)]
  simp only [mem_upTo, and_imp]

theorem findUpTo?_eq_none_iff :
    findUpTo? symbols n p = none ↔
      ∀ v : Word, v.length ≤ n → Over symbols v → p v = false := by
  rw [findUpTo?_eq_find?, List.find?_eq_none]
  simp only [mem_upTo, and_imp, Bool.not_eq_true]

end Word

end RegularLanguages
