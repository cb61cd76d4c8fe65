import RegularLanguages.Proofs.Equation.Variables
import RegularLanguages.Proofs.Text.Lines

/-!
# The line of an equation

A line that begins with the name of a variable and an equality sign is read by the terms behind the
sign. Only the end of the line is trimmed in between, and a comment is cut off there.

Results:
* **`parseLine_equation`**: the line of an equation is read by its terms.
-/

namespace RegularLanguages.EquationSystem

variable {v : Variable} {reading : Reading} {line : Nat} {right : List Char}

/-- The character neither ends a line or an equation nor starts a comment. -/
def IsPlain (c : Char) : Prop := c ≠ '\n' ∧ c ≠ '#' ∧ c ≠ '='

instance (c : Char) : Decidable (IsPlain c) :=
  inferInstanceAs (Decidable (c ≠ '\n' ∧ c ≠ '#' ∧ c ≠ '='))

theorem isPlain_of_mem_variable : ∀ c ∈ v.chars, IsPlain c := by
  intro c hc
  have halphanumeric := Variable.isAlphanumeric_of_mem_chars c hc
  have hne {d : Char} := Text.ne_of_isAlphanumeric halphanumeric (d := d)
  exact ⟨hne (by decide +kernel), hne (by decide +kernel), hne (by decide +kernel)⟩

/-- What stands in front of the equality sign. -/
theorem isPlain_of_mem_left : ∀ c ∈ v.chars ++ [' '], IsPlain c :=
  List.forall_mem_append.mpr ⟨isPlain_of_mem_variable, List.forall_mem_singleton.mpr (by decide)⟩

/-- The line of an equation with the given right hand side. -/
def equationChars (v : Variable) (right : List Char) : List Char :=
  v.chars ++ [' '] ++ '=' :: right

theorem trim_equationChars (v : Variable) (right : List Char) :
    Text.trim (equationChars v right) = equationChars v (Text.trimEnd right) := by
  have hne : v.chars ≠ [] := List.cons_ne_nil _ _
  have hstart : Text.trimStart ([] ++ equationChars v right) = equationChars v right := by
    refine Text.trimStart_padded (List.forall_mem_nil _) fun c hc => ?_
    rw [equationChars, List.append_assoc, List.head?_append_of_ne_nil _ hne] at hc
    exact Variable.not_isBlank_of_mem_chars c (List.mem_of_head? hc)
  rw [List.nil_append] at hstart
  rw [Text.trim, hstart, equationChars, Text.trimEnd_append (by decide), equationChars]

theorem takeWhile_equationChars (v : Variable) (right : List Char) :
    (equationChars v right).takeWhile (· ≠ '=') = v.chars ++ [' '] := by
  rw [equationChars, List.takeWhile_append_of_pos fun c hc => decide_eq_true
    (isPlain_of_mem_left c hc).2.2, List.takeWhile_cons_of_neg (by decide), List.append_nil]

theorem dropWhile_equationChars (v : Variable) (right : List Char) :
    (equationChars v right).dropWhile (· ≠ '=') = '=' :: right := by
  rw [equationChars, List.dropWhile_append_of_pos fun c hc => decide_eq_true
    (isPlain_of_mem_left c hc).2.2, List.dropWhile_cons_of_neg (by decide)]

/-- A line is not broken and nothing in it is a comment, if this is so for the right hand side. -/
theorem forall_mem_equationChars (h : ∀ c ∈ right, c ≠ '\n' ∧ c ≠ '#') :
    ∀ c ∈ equationChars v right, c ≠ '\n' ∧ c ≠ '#' := by
  refine List.forall_mem_append.mpr ⟨fun c hc => ?_, List.forall_mem_cons.mpr ⟨by decide, h⟩⟩
  have hplain := isPlain_of_mem_left c hc
  exact ⟨hplain.1, hplain.2.1⟩

/-- **The line of an equation** is read by its terms. -/
theorem parseLine_equation (hv : v.index < Variable.bound)
    (hnew : v ∉ reading.equations.map (·.1)) (hright : ∀ c ∈ right, c ≠ '\n' ∧ c ≠ '#') :
    parseLine reading line (equationChars v right) =
      (parseTerms line (splitTerms 0 (Text.trimEnd right)) .zero reading.uses).map fun found =>
        ⟨(v, found.1) :: reading.equations, found.2⟩ := by
  have hcomment : (equationChars v right).takeWhile (· ≠ '#') = equationChars v right :=
    List.takeWhile_eq_self_iff.mpr fun c hc =>
      decide_eq_true (forall_mem_equationChars hright c hc).2
  have hleft : Text.trim (v.chars ++ [' ']) = v.chars :=
    (Text.trimmed_of_forall Variable.not_isBlank_of_mem_chars).trim_append_blank
      (List.cons_ne_nil _ _)
  have hempty : (equationChars v (Text.trimEnd right)).isEmpty = false := rfl
  have hequals : '=' ∈ equationChars v (Text.trimEnd right) := by
    rw [equationChars]
    simp
  unfold parseLine
  rw [hcomment, trim_equationChars]
  dsimp only
  rw [hempty, takeWhile_equationChars, dropWhile_equationChars, hleft, Variable.ofChars?_chars hv,
    if_neg Bool.false_ne_true, if_neg (not_not_intro hequals)]
  dsimp only
  rw [if_neg hnew, List.drop_succ_cons, List.drop_zero]
  cases parseTerms line (splitTerms 0 (Text.trimEnd right)) .zero reading.uses <;> rfl

end RegularLanguages.EquationSystem
