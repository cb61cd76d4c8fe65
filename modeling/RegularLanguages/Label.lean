import RegularLanguages.State

/-!
# Labels of transitions

A transition is labelled with a symbol or with the empty word. The character `ε` writes the
empty word wherever labels or expressions are given as text.
-/

namespace RegularLanguages

/-- The character that writes the empty word. -/
def epsilonChar : Char := 'ε'

/-- The label of a transition: the empty word or one symbol. -/
inductive Label
  | epsilon
  | symbol (c : Char)
deriving DecidableEq, Inhabited

namespace Label

/-- The rank of a label in the order of labels, where the empty word precedes every symbol. -/
def rank : Label → Nat
  | epsilon => 0
  | symbol c => c.toNat + 1

theorem rank_injective {a b : Label} (h : a.rank = b.rank) : a = b := by
  cases a <;> cases b <;> simp only [rank, Nat.add_right_cancel_iff] at h
  · rfl
  · omega
  · omega
  · exact congrArg symbol (Char.toNat_inj.mp h)

instance : Ord Label := ⟨compareOn rank⟩

instance : Hashable Label := ⟨fun a => hash a.rank⟩

instance : Std.TransOrd Label := inferInstanceAs (Std.TransCmp (compareOn rank))

instance : Std.LawfulEqOrd Label where
  compare_self := Std.ReflCmp.compare_self
  eq_of_compare {a b} h :=
    rank_injective (Std.LawfulEqCmp.eq_of_compare (show compare a.rank b.rank = .eq from h))

/-- The label that a character writes: `ε` is the empty word, every other character a symbol. -/
def ofChar (c : Char) : Label := if c = epsilonChar then epsilon else symbol c

/-- The character that writes a label. -/
def toChar : Label → Char
  | epsilon => epsilonChar
  | symbol c => c

/-- The symbol of a label, if it is not the empty word. -/
def symbol? : Label → Option Char
  | epsilon => none
  | symbol c => some c

/-- The label as shown to a reader. -/
def toText (a : Label) : String := a.toChar.toString

end Label

end RegularLanguages
