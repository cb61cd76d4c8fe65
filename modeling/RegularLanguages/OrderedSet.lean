/-!
# Finite sets over an ordered type

An `OrderedSet` is the strictly increasing list of its members, so a set has exactly one
representation: two sets with the same members are equal (`OrderedSet.ext_mem`), and every
traversal visits the members in increasing order, whatever the history of the set.

Membership in the result of each operation is stated beside it (`mem_insert`, `mem_erase`,
`mem_ofList`, `mem_union`, `mem_inter`, `mem_filter`); nothing else about the list is needed
to use the operations.
-/

namespace RegularLanguages

/-- A finite set, kept as the strictly increasing list of its members. -/
structure OrderedSet (α : Type) [Ord α] where
  /-- The members in increasing order. -/
  toList : List α
  sorted : toList.Pairwise fun a b => compare a b = .lt

namespace OrderedSet

variable {α β : Type} [Ord α] [Ord β]

instance : Membership α (OrderedSet α) := ⟨fun s x => x ∈ s.toList⟩

theorem mem_toList {s : OrderedSet α} {x : α} : x ∈ s.toList ↔ x ∈ s := Iff.rfl

instance [DecidableEq α] (x : α) (s : OrderedSet α) : Decidable (x ∈ s) :=
  inferInstanceAs (Decidable (x ∈ s.toList))

theorem ext_toList {s t : OrderedSet α} (h : s.toList = t.toList) : s = t := by
  cases s; cases t; cases h; rfl

instance [DecidableEq α] : DecidableEq (OrderedSet α) := fun s t =>
  decidable_of_iff (s.toList = t.toList) ⟨ext_toList, congrArg toList⟩

instance [Hashable α] : Hashable (OrderedSet α) := ⟨fun s => hash s.toList⟩

/-- The set without members. -/
def empty : OrderedSet α := ⟨[], .nil⟩

instance : EmptyCollection (OrderedSet α) := ⟨empty⟩

instance : Inhabited (OrderedSet α) := ⟨∅⟩

@[simp] theorem toList_empty : (∅ : OrderedSet α).toList = [] := rfl

@[simp] theorem not_mem_empty (x : α) : x ∉ (∅ : OrderedSet α) := List.not_mem_nil

/-- The number of members. -/
def size (s : OrderedSet α) : Nat := s.toList.length

/-- Whether there is no member. -/
def isEmpty (s : OrderedSet α) : Bool := s.toList.isEmpty

/-- The members that satisfy `p`. -/
def filter (s : OrderedSet α) (p : α → Bool) : OrderedSet α :=
  ⟨s.toList.filter p, s.sorted.filter p⟩

@[simp] theorem mem_filter {s : OrderedSet α} {p : α → Bool} {x : α} :
    x ∈ s.filter p ↔ x ∈ s ∧ p x = true := List.mem_filter

section Order

/-- Inserts `x` into an increasing list, in front of the first greater entry. -/
def insertSorted (x : α) : List α → List α
  | [] => [x]
  | y :: ys =>
    match compare x y with
    | .lt => x :: y :: ys
    | .eq => y :: ys
    | .gt => y :: insertSorted x ys

theorem mem_insertSorted [Std.LawfulEqOrd α] {x z : α} :
    {l : List α} → (z ∈ insertSorted x l ↔ z = x ∨ z ∈ l)
  | [] => by simp [insertSorted]
  | y :: ys => by
    unfold insertSorted
    split
    · simp
    · rename_i h
      cases Std.LawfulEqCmp.eq_of_compare h
      simp
    · simp only [List.mem_cons, mem_insertSorted (l := ys)]
      grind

variable [Std.TransOrd α] [Std.LawfulEqOrd α]

theorem sorted_insertSorted {x : α} :
    {l : List α} → l.Pairwise (fun a b => compare a b = .lt) →
      (insertSorted x l).Pairwise fun a b => compare a b = .lt
  | [], _ => List.pairwise_singleton _ _
  | y :: ys, h => by
    obtain ⟨hy, hys⟩ := List.pairwise_cons.mp h
    unfold insertSorted
    split
    · rename_i hxy
      refine List.pairwise_cons.mpr ⟨fun z hz => ?_, h⟩
      rcases List.mem_cons.mp hz with rfl | hz
      · exact hxy
      · exact Std.TransCmp.lt_trans hxy (hy z hz)
    · exact h
    · rename_i hxy
      refine List.pairwise_cons.mpr ⟨fun z hz => ?_, sorted_insertSorted hys⟩
      rcases mem_insertSorted.mp hz with rfl | hz
      · exact Std.OrientedCmp.lt_of_gt hxy
      · exact hy z hz

/-- The set with `x` added. -/
def insert (s : OrderedSet α) (x : α) : OrderedSet α :=
  ⟨insertSorted x s.toList, sorted_insertSorted s.sorted⟩

@[simp] theorem mem_insert {s : OrderedSet α} {x z : α} : z ∈ s.insert x ↔ z = x ∨ z ∈ s :=
  mem_insertSorted

/-- The set of the entries of a list. -/
def ofList (xs : List α) : OrderedSet α := xs.foldr (fun x s => s.insert x) ∅

@[simp] theorem mem_ofList {xs : List α} {z : α} : z ∈ ofList xs ↔ z ∈ xs := by
  induction xs with
  | nil => simp [ofList]
  | cons x xs ih => simpa [ofList] using or_congr_right ih

/-- The members of either set. -/
def union (s t : OrderedSet α) : OrderedSet α := s.toList.foldr (fun x s => s.insert x) t

instance : Union (OrderedSet α) := ⟨union⟩

@[simp] theorem mem_union {s t : OrderedSet α} {z : α} : z ∈ s ∪ t ↔ z ∈ s ∨ z ∈ t := by
  show z ∈ s.toList.foldr (fun x s => s.insert x) t ↔ z ∈ s.toList ∨ z ∈ t
  induction s.toList with
  | nil => simp
  | cons x xs ih => simp [ih, or_assoc]

/-- Two increasing lists with the same entries are equal. -/
theorem eq_of_sorted : {l m : List α} → l.Pairwise (fun a b => compare a b = .lt) →
    m.Pairwise (fun a b => compare a b = .lt) → (∀ z, z ∈ l ↔ z ∈ m) → l = m
  | [], [], _, _, _ => rfl
  | [], y :: ys, _, _, h => by simpa using (h y).mpr
  | x :: xs, [], _, _, h => by simpa using (h x).mp
  | x :: xs, y :: ys, hl, hm, h => by
    obtain ⟨hx, hxs⟩ := List.pairwise_cons.mp hl
    obtain ⟨hy, hys⟩ := List.pairwise_cons.mp hm
    have irrefl (a : α) : ¬ compare a a = .lt := by simp
    have asymm {a b : α} (hab : compare a b = .lt) : ¬ compare b a = .lt := fun hba =>
      irrefl a (Std.TransCmp.lt_trans hab hba)
    have hxy : x = y := by
      rcases List.mem_cons.mp ((h x).mp List.mem_cons_self) with e | hxm
      · exact e
      · rcases List.mem_cons.mp ((h y).mpr List.mem_cons_self) with e | hyl
        · exact e.symm
        · exact absurd (hy x hxm) (asymm (hx y hyl))
    subst hxy
    refine congrArg (x :: ·) (eq_of_sorted hxs hys fun z => ⟨fun hz => ?_, fun hz => ?_⟩)
    · rcases List.mem_cons.mp ((h z).mp (List.mem_cons_of_mem _ hz)) with rfl | hz'
      · exact absurd (hx z hz) (irrefl z)
      · exact hz'
    · rcases List.mem_cons.mp ((h z).mpr (List.mem_cons_of_mem _ hz)) with rfl | hz'
      · exact absurd (hy z hz) (irrefl z)
      · exact hz'

/-- A set is determined by its members. -/
theorem ext_mem {s t : OrderedSet α} (h : ∀ z, z ∈ s ↔ z ∈ t) : s = t :=
  ext_toList (eq_of_sorted s.sorted t.sorted h)

end Order

/-- The images of the members under `f`. -/
def map [Std.TransOrd β] [Std.LawfulEqOrd β] (s : OrderedSet α) (f : α → β) : OrderedSet β :=
  ofList (s.toList.map f)

@[simp] theorem mem_map [Std.TransOrd β] [Std.LawfulEqOrd β] {s : OrderedSet α} {f : α → β}
    {z : β} : z ∈ s.map f ↔ ∃ x ∈ s, f x = z := by
  simp [map, mem_toList]

section DecidableEq

variable [DecidableEq α]

/-- The set without `x`. -/
def erase (s : OrderedSet α) (x : α) : OrderedSet α := s.filter (· ≠ x)

@[simp] theorem mem_erase {s : OrderedSet α} {x z : α} : z ∈ s.erase x ↔ z ∈ s ∧ z ≠ x := by
  simp [erase]

/-- The common members of both sets. -/
def inter (s t : OrderedSet α) : OrderedSet α := s.filter (· ∈ t)

instance : Inter (OrderedSet α) := ⟨inter⟩

@[simp] theorem mem_inter {s t : OrderedSet α} {z : α} : z ∈ s ∩ t ↔ z ∈ s ∧ z ∈ t := by
  show z ∈ s.filter (· ∈ t) ↔ _
  simp

end DecidableEq

end OrderedSet

end RegularLanguages
