import RegularLanguages.OrderedSet

/-!
# States

A state of an automaton is known by its name alone. States are ordered **shortlex**: the name
with fewer UTF-8 bytes comes first, names of one length are compared byte by byte, which for
UTF-8 is the order of their code points. So `q2 < q10 < p100`. Every set of states is traversed
in this order, which fixes the names of subsets, the order in which states are eliminated and
the numbering of canonical automata.
-/

namespace RegularLanguages

/-- A state, given by its name. -/
structure State where
  name : String
deriving DecidableEq, Hashable, Inhabited

namespace State

/-- The shortlex order: first the number of bytes, then the bytes. -/
def shortlex : State → State → Ordering :=
  compareLex (compareOn fun q => q.name.utf8ByteSize) (compareOn fun q => q.name)

instance : Ord State := ⟨shortlex⟩

instance : Std.TransOrd State :=
  inferInstanceAs (Std.TransCmp
    (compareLex (compareOn fun q : State => q.name.utf8ByteSize) (compareOn fun q => q.name)))

instance : Std.LawfulEqOrd State where
  compare_self := Std.ReflCmp.compare_self
  eq_of_compare {p q} h := by
    cases p; cases q
    obtain ⟨-, h⟩ := compareLex_eq_eq.mp h
    exact congrArg State.mk (Std.LawfulEqCmp.eq_of_compare h)

/-- The state numbered `i` in a family of states that share a stem, such as `q0, q1, …`. -/
def numbered (stem : String) (i : Nat) : State := ⟨stem ++ toString i⟩

/-- The state whose name is that of `q` behind the given tag. -/
def tagged (tag : String) (q : State) : State := ⟨tag ++ q.name⟩

theorem tagged_injective {tag : String} {p q : State} (h : p.tagged tag = q.tagged tag) :
    p = q := by
  cases p; cases q
  simpa [tagged] using h

/-- The names of the given states, separated by `separator` and put in braces. -/
def listing (separator : String) (states : List State) : String :=
  "\x7b" ++ separator.intercalate (states.map name) ++ "\x7d"

/-- The name of a state that stands for a set of states, such as `{q0,q2}`. -/
def ofSubset (states : List State) : State := ⟨listing "," states⟩

/-- The name of a state that stands for a pair of states, such as `(p,q)`. -/
def ofPair (p q : State) : State := ⟨"(" ++ p.name ++ "," ++ q.name ++ ")"⟩

/-- A set of states as shown to a reader: `{q0, q1}`, or `∅` if it is empty. -/
def showSet (states : OrderedSet State) : String :=
  if states.isEmpty then "∅" else listing ", " states.toList

end State

end RegularLanguages
