import RegularLanguages.Regex.Fault

/-!
# Open parentheses

The parentheses that wait for a partner, as a stack of positions (`Opened`): balanced text stands
in front of the first one, between any two of them and behind the last one. Every character that
a text is continued with acts on this stack, and its top is the last parenthesis that is never
closed.

Results:
* `Opened.other`, `Opened.opening`, `Opened.closing`: what one more character does to the stack.
* `Balanced.exists_closing`: every opening parenthesis of balanced text is closed in it.
* **`Opened.isLastUnclosed_iff`**: the top of the stack is the last parenthesis that is never
  closed, and there is one only if the stack has a top.
-/

namespace RegularLanguages.Regex

variable {cs ds front : List Char} {c : Char} {position : Nat}

/-! ## Balanced text -/

theorem Balanced.append (hc : Balanced cs) (hd : Balanced ds) : Balanced (cs ++ ds) := by
  induction hc with
  | nil => exact hd
  | cons hopening hclosing _ ih => exact .cons hopening hclosing ih
  | group hinner _ _ ih =>
    rw [List.append_assoc, List.cons_append]
    exact .group hinner ih

theorem balanced_singleton (hopening : c ≠ '(') (hclosing : c ≠ ')') : Balanced [c] :=
  .cons hopening hclosing .nil

theorem not_balanced_closing : ¬ Balanced (')' :: cs) := by
  intro h
  cases h with
  | cons _ hclosing _ => exact hclosing rfl

/-- Of two balanced texts that start alike, where the second is followed by a closing
parenthesis, the first one does not go beyond the second. -/
theorem Balanced.exists_rest (hc : Balanced cs) {inner behind rest : List Char}
    (hinner : Balanced inner) (h : cs ++ behind = inner ++ ')' :: rest) :
    ∃ between, Balanced between ∧ behind = between ++ ')' :: rest := by
  induction hc generalizing inner behind rest with
  | nil => exact ⟨inner, hinner, h⟩
  | cons hopening hclosing _ ih =>
    cases hinner with
    | nil => exact absurd (List.cons_eq_cons.mp h).1 hclosing
    | cons _ _ hinner => exact ih hinner (List.cons_eq_cons.mp h).2
    | group _ _ => exact absurd (List.cons_eq_cons.mp h).1 hopening
  | group hgroup _ ihgroup ih =>
    cases hinner with
    | nil => exact absurd (List.cons_eq_cons.mp h).1 (by decide)
    | cons hopening _ _ => exact absurd (List.cons_eq_cons.mp h).1.symm hopening
    | group hgroup' hinner =>
      simp only [List.append_assoc, List.cons_append, List.cons.injEq, true_and] at h
      obtain ⟨between, hbetween, h⟩ := ihgroup hgroup' h
      cases between with
      | nil => exact ih hinner (List.cons_eq_cons.mp h).2
      | cons d between =>
        obtain ⟨rfl, -⟩ := List.cons_eq_cons.mp h
        exact absurd hbetween not_balanced_closing

/-- A balanced text is not cut by a closing parenthesis behind balanced text. -/
theorem Balanced.ne_closed (hc : Balanced cs) {inner rest : List Char} (hinner : Balanced inner) :
    cs ≠ inner ++ ')' :: rest := by
  intro h
  rw [← List.append_nil cs] at h
  obtain ⟨between, -, h⟩ := hc.exists_rest hinner h
  exact absurd h (by simp)

/-- **Every opening parenthesis of balanced text is closed in it.** -/
theorem Balanced.exists_closing (hc : Balanced cs) {behind : List Char}
    (h : cs = front ++ '(' :: behind) :
    ∃ inner rest, Balanced inner ∧ behind = inner ++ ')' :: rest := by
  induction hc generalizing front behind with
  | nil => exact absurd h (by simp)
  | cons hopening _ _ ih =>
    cases front with
    | nil => exact absurd (List.cons_eq_cons.mp h).1 hopening
    | cons _ front => exact ih (List.cons_eq_cons.mp h).2
  | @group cs ds hgroup _ ihgroup ih =>
    cases front with
    | nil => exact ⟨cs, ds, hgroup, (List.cons_eq_cons.mp h).2.symm⟩
    | cons _ front =>
      rcases List.append_eq_append_iff.mp (List.cons_eq_cons.mp h).2 with
        ⟨middle, rfl, hmiddle⟩ | ⟨middle, rfl, hmiddle⟩
      · cases middle with
        | nil => exact absurd (List.cons_eq_cons.mp hmiddle).1 (by decide)
        | cons _ middle => exact ih (List.cons_eq_cons.mp hmiddle).2
      · cases middle with
        | nil => exact absurd (List.cons_eq_cons.mp hmiddle).1 (by decide)
        | cons _ middle =>
          obtain ⟨rfl, rfl⟩ := List.cons_eq_cons.mp hmiddle
          obtain ⟨inner, rest, hinner, rfl⟩ := ihgroup rfl
          exact ⟨inner, rest ++ ')' :: ds, hinner, List.append_assoc inner (')' :: rest) _⟩

/-! ## The stack of open parentheses -/

/-- The positions of the parentheses of a text that wait for a partner, the last one first. -/
inductive Opened : List Nat → List Char → Prop
  | nil {cs : List Char} : Balanced cs → Opened [] cs
  | cons {positions : List Nat} {front cs : List Char} :
      Opened positions front → Balanced cs →
        Opened (front.length :: positions) (front ++ '(' :: cs)

variable {positions : List Nat}

theorem Opened.append (h : Opened positions cs) (hd : Balanced ds) :
    Opened positions (cs ++ ds) := by
  cases h with
  | nil hc => exact .nil (hc.append hd)
  | cons h hc =>
    rw [List.append_assoc, List.cons_append]
    exact .cons h (hc.append hd)

theorem Opened.other (h : Opened positions cs) (hopening : c ≠ '(') (hclosing : c ≠ ')') :
    Opened positions (cs ++ [c]) :=
  h.append (balanced_singleton hopening hclosing)

theorem Opened.opening (h : Opened positions cs) :
    Opened (cs.length :: positions) (cs ++ ['(']) := .cons h .nil

theorem Opened.closing (h : Opened (position :: positions) cs) :
    Opened positions (cs ++ [')']) := by
  cases h with
  | cons h hc =>
    rw [List.append_assoc]
    exact h.append (.group hc .nil)

/-- Text without open parentheses is balanced. -/
theorem Opened.balanced (h : Opened [] cs) : Balanced cs := by
  cases h with
  | nil hc => exact hc

/-! ## The last open parenthesis -/

/-- An entry at a position has the entries in front of it and those behind it. -/
theorem getElem?_eq_some_iff_eq_append :
    cs[position]? = some c ↔ ∃ front rest, cs = front ++ c :: rest ∧ front.length = position := by
  constructor
  · intro h
    obtain ⟨hlt, rfl⟩ := List.getElem?_eq_some_iff.mp h
    refine ⟨cs.take position, cs.drop (position + 1), ?_, List.length_take_of_le (Nat.le_of_lt hlt)⟩
    rw [← List.drop_eq_getElem_cons hlt, List.take_append_drop]
  · rintro ⟨front, rest, rfl, rfl⟩
    rw [List.getElem?_append_right (Nat.le_refl _), Nat.sub_self, List.getElem?_cons_zero]

/-- Behind any text, the opening parentheses of balanced text are closed. -/
theorem Balanced.isClosedAt (hd : Balanced ds) (front : List Char) {middle rest : List Char}
    (h : ds = middle ++ '(' :: rest) : IsClosedAt (front ++ ds) (front ++ middle).length := by
  obtain ⟨inner, behind, hinner, rfl⟩ := hd.exists_closing h
  exact ⟨front ++ middle, inner, behind, by simp [h], rfl, hinner⟩

theorem Opened.isLastUnclosed (h : Opened (position :: positions) cs) :
    IsLastUnclosed cs position := by
  cases h with
  | @cons _ front cs h hc =>
    constructor
    case opening => exact getElem?_eq_some_iff_eq_append.mpr ⟨front, cs, rfl, rfl⟩
    case not_closed =>
      rintro ⟨front', inner, rest, heq, hlength, hinner⟩
      rw [List.append_assoc, List.cons_append] at heq
      obtain ⟨-, hbehind⟩ := List.append_inj heq hlength.symm
      exact hc.ne_closed hinner (List.cons_eq_cons.mp hbehind).2
    case last =>
      -- what is opened later is opened in the balanced text behind the open parenthesis
      intro later hlater hopening
      obtain ⟨front', rest, heq, rfl⟩ := getElem?_eq_some_iff_eq_append.mp hopening
      rcases List.append_eq_append_iff.mp heq with ⟨middle, rfl, hmiddle⟩ | ⟨middle, rfl, -⟩
      · cases middle with
        | nil => simp at hlater
        | cons d middle =>
          obtain ⟨rfl, hbehind⟩ := List.cons_eq_cons.mp hmiddle
          have hclosed := hc.isClosedAt (front ++ ['(']) hbehind
          rwa [← List.append_cons, ← List.append_cons] at hclosed
      · simp only [List.length_append] at hlater
        omega

/-- **The top of the stack** is the last parenthesis that is never closed, if there is any. -/
theorem Opened.isLastUnclosed_iff (h : Opened positions cs) :
    IsLastUnclosed cs position ↔ positions.head? = some position := by
  cases positions with
  | nil =>
    refine iff_of_false (fun hlast => hlast.not_closed ?_) (by simp)
    obtain ⟨front, rest, rfl, rfl⟩ := getElem?_eq_some_iff_eq_append.mp hlast.opening
    exact h.balanced.isClosedAt [] rfl
  | cons top positions =>
    have htop := h.isLastUnclosed
    rw [List.head?_cons, Option.some_inj]
    constructor
    · intro hlast
      rcases Nat.lt_trichotomy top position with hlt | heq | hgt
      · exact absurd (htop.last position hlt hlast.opening) hlast.not_closed
      · exact heq
      · exact absurd (hlast.last top hgt htop.opening) htop.not_closed
    · rintro rfl
      exact htop

end RegularLanguages.Regex
