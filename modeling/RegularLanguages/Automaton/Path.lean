import RegularLanguages.Automaton.Basic
import RegularLanguages.Word

/-!
# Paths and the language of an automaton

The meaning of an automaton: the words that the labels of some path from the initial state to a
final state spell. Transitions on the empty word may be taken anywhere and add nothing.
-/

namespace RegularLanguages.Automaton

/-- Some path of transitions leads from one state to another and spells the word. -/
inductive Path (A : Automaton) : State → Word → State → Prop
  | refl (q : State) : Path A q [] q
  | epsilon {p q r : State} {w : Word} :
      ⟨p, .epsilon, q⟩ ∈ A.edges → Path A q w r → Path A p w r
  | symbol {p q r : State} {c : Char} {w : Word} :
      ⟨p, .symbol c, q⟩ ∈ A.edges → Path A q w r → Path A p (c :: w) r

/-- The language of the automaton. -/
def language (A : Automaton) : Language := fun w =>
  ∃ p q, A.initial = some p ∧ q ∈ A.finals ∧ A.Path p w q

/-- The words that lead from a state to a final state. -/
def languageFrom (A : Automaton) (p : State) : Language := fun w => ∃ q ∈ A.finals, A.Path p w q

theorem Path.append {A : Automaton} {p q r : State} {u v : Word} (hu : A.Path p u q)
    (hv : A.Path q v r) : A.Path p (u ++ v) r := by
  induction hu with
  | refl => exact hv
  | epsilon he _ ih => exact .epsilon he (ih hv)
  | symbol he _ ih => exact .symbol he (ih hv)

/-- A path that spells two words one after the other passes through a state in between. -/
theorem Path.split {A : Automaton} {p r : State} {u v : Word} (h : A.Path p (u ++ v) r) :
    ∃ q, A.Path p u q ∧ A.Path q v r := by
  generalize hw : u ++ v = w at h
  induction h generalizing u with
  | refl q =>
    obtain ⟨rfl, rfl⟩ := List.append_eq_nil_iff.mp hw
    exact ⟨q, .refl q, .refl q⟩
  | epsilon he _ ih =>
    obtain ⟨q, hu, hv⟩ := ih hw
    exact ⟨q, .epsilon he hu, hv⟩
  | @symbol p _ _ c _ he hp ih =>
    cases u with
    | nil =>
      subst hw
      exact ⟨p, .refl p, .symbol he hp⟩
    | cons d u =>
      obtain ⟨hd, hu⟩ : d = c ∧ u ++ v = _ := by simpa using hw
      obtain ⟨q, hu, hv⟩ := ih hu
      exact ⟨q, hd ▸ .symbol he hu, hv⟩

end RegularLanguages.Automaton
