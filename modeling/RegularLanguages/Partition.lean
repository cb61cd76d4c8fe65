import RegularLanguages.OrderedSet

/-!
# Partitions

A partition lists the classes of an equivalence relation. Two partitions are compared by the
number of their classes and by whether every class of the first is one of the second; the order
of the classes does not matter.
-/

namespace RegularLanguages

/-- A list of classes. -/
structure Partition (α : Type) [Ord α] where
  classes : List (OrderedSet α)

namespace Partition

variable {α : Type} [Ord α]

/-- The partition into the given classes, where classes without members are dropped. -/
def ofLists [Std.TransOrd α] [Std.LawfulEqOrd α] (classes : List (List α)) : Partition α :=
  ⟨(classes.map OrderedSet.ofList).filter fun s => !s.isEmpty⟩

/-- The number of classes. -/
def size (P : Partition α) : Nat := P.classes.length

/-- Whether every class has exactly one member. -/
def isDiscrete (P : Partition α) : Bool := P.classes.all (·.size = 1)

/-- The first class that `x` is a member of. -/
def classOf? [DecidableEq α] (P : Partition α) (x : α) : Option (OrderedSet α) :=
  P.classes.find? (x ∈ ·)

/-- Whether two partitions have equally many classes and every class of the first is a class of
the second. -/
def agrees [DecidableEq α] (P Q : Partition α) : Bool :=
  P.size = Q.size && P.classes.all (· ∈ Q.classes)

instance [DecidableEq α] : BEq (Partition α) := ⟨agrees⟩

end Partition

end RegularLanguages
