import Mathlib.Data.List.Duplicate
import RegularLanguages.Partition
import RegularLanguages.Proofs.OrderedSet

/-!
# Comparing partitions

The comparison counts the classes and looks for those of the first partition among those of the
second. If no class occurs twice in the first partition, equally many classes of the second must be
exactly these, in some order. If a class does occur twice, the second occurrence says nothing, and
a partition with another class in its place agrees, but not the other way round. So the comparison
is reflexive and transitive for all lists of classes, and symmetric for those without repetitions.

Results:
* `beq_refl`, `beq_trans`: no condition on the classes.
* **`beq_iff_perm`**: without repetitions partitions agree iff they differ in the order only.
* `exists_beq_of_not_nodup`: a repeated class can be replaced by another one.
* **`beq_refl_and_trans_and_symm_iff`**: what the comparison of partitions decides.
-/

namespace RegularLanguages.Partition

variable {α : Type} [Ord α] {P Q R : Partition α} {s t : OrderedSet α}

/-- The same sets occur as classes. -/
def SameClasses (P Q : Partition α) : Prop := ∀ s, s ∈ P.classes ↔ s ∈ Q.classes

section GivenByLists

variable [Std.TransOrd α] [Std.LawfulEqOrd α]

theorem not_isEmpty_of_mem_ofLists {classes : List (List α)}
    (hs : s ∈ (ofLists classes).classes) : s.isEmpty = false := by
  have := (List.mem_filter.mp hs).2
  rwa [Bool.not_eq_true'] at this

/-- Every list of classes that are not empty can be given by lists of members. -/
theorem exists_ofLists_eq (hP : ∀ s ∈ P.classes, s.isEmpty = false) :
    ∃ classes, ofLists classes = P := by
  refine ⟨P.classes.map OrderedSet.toList, congrArg Partition.mk ?_⟩
  have hid : OrderedSet.ofList ∘ OrderedSet.toList = @id (OrderedSet α) :=
    funext OrderedSet.ofList_toList
  rw [List.map_map, hid, List.map_id]
  exact List.filter_eq_self.mpr fun s hs => by rw [hP s hs]; rfl

end GivenByLists

variable [DecidableEq α]

theorem beq_iff : (P == Q) = true ↔
    P.classes.length = Q.classes.length ∧ P.classes ⊆ Q.classes := by
  show agrees P Q = true ↔ _
  simp only [agrees, Bool.and_eq_true, decide_eq_true_eq, List.all_eq_true]
  rfl

theorem beq_refl (P : Partition α) : (P == P) = true := beq_iff.mpr ⟨rfl, List.Subset.refl _⟩

theorem beq_trans (h : (P == Q) = true) (h' : (Q == R) = true) : (P == R) = true := by
  rw [beq_iff] at h h' ⊢
  exact ⟨h.1.trans h'.1, List.Subset.trans h.2 h'.2⟩

/-- Partitions that agree one way agree the other way if the same classes occur in them. -/
theorem beq_symm_iff (h : (P == Q) = true) : (Q == P) = true ↔ SameClasses P Q := by
  rw [beq_iff] at h ⊢
  constructor
  · exact fun h' _ => ⟨fun hs => h.2 hs, fun hs => h'.2 hs⟩
  · exact fun hsame => ⟨h.1.symm, fun s hs => (hsame s).mpr hs⟩

/-! ## Without repetitions -/

/-- **Without repetitions** partitions agree iff they have the same classes in some order. -/
theorem beq_iff_perm (hP : P.classes.Nodup) : (P == Q) = true ↔ P.classes.Perm Q.classes := by
  rw [beq_iff]
  constructor
  · intro ⟨hlength, hsub⟩
    exact (List.subperm_of_subset hP hsub).perm_of_length_le (Nat.le_of_eq hlength.symm)
  · exact fun h => ⟨h.length_eq, h.subset⟩

theorem beq_iff_sameClasses (hP : P.classes.Nodup) :
    (P == Q) = true ↔ Q.classes.Nodup ∧ SameClasses P Q := by
  rw [beq_iff_perm hP]
  constructor
  · exact fun h => ⟨h.nodup_iff.mp hP, fun _ => h.mem_iff⟩
  · exact fun ⟨hQ, hsame⟩ => (List.perm_ext_iff_of_nodup hP hQ).mpr hsame

/-! ## With repetitions -/

/-- The partition with `s` in place of one occurrence of `t`. -/
def replaceClass (P : Partition α) (t s : OrderedSet α) : Partition α :=
  ⟨s :: P.classes.erase t⟩

/-- One of two occurrences of a class makes no difference to what the other partition must have. -/
theorem beq_replaceClass (ht : List.Duplicate t P.classes) : (P == P.replaceClass t s) = true := by
  have hmem : t ∈ P.classes := ht.mem
  have hleft : t ∈ P.classes.erase t := by
    have htwice := List.duplicate_iff_two_le_count.mp ht
    rw [← List.count_pos_iff, List.count_erase_self]
    omega
  refine beq_iff.mpr ⟨?_, fun u hu => List.mem_cons_of_mem _ ?_⟩
  · show _ = (P.classes.erase t).length + 1
    rw [List.length_erase_of_mem hmem]
    exact (Nat.sub_add_cancel (List.length_pos_of_mem hmem)).symm
  · by_cases hut : u = t
    · exact hut ▸ hleft
    · exact (List.mem_erase_of_ne hut).mpr hu

theorem not_replaceClass_beq (hs : s ∉ P.classes) : ¬ (P.replaceClass t s == P) = true := fun h =>
  hs ((beq_iff.mp h).2 List.mem_cons_self)

variable [Std.TransOrd α] [Std.LawfulEqOrd α]

/-- **With repetitions** a partition agrees with one that does not agree with it, if there is a
further class. -/
theorem exists_beq_of_not_nodup {classes : List (List α)} (hn : ¬ (ofLists classes).classes.Nodup)
    (hs : s ∉ (ofLists classes).classes) (hempty : s.isEmpty = false) :
    ∃ others, (ofLists classes == ofLists others) = true ∧
      ¬ (ofLists others == ofLists classes) = true := by
  obtain ⟨t, ht⟩ := List.exists_duplicate_iff_not_nodup.mpr hn
  have hclasses : ∀ u ∈ ((ofLists classes).replaceClass t s).classes, u.isEmpty = false := by
    intro u hu
    rcases List.mem_cons.mp hu with rfl | hu
    · exact hempty
    · exact not_isEmpty_of_mem_ofLists (List.mem_of_mem_erase hu)
  obtain ⟨others, hothers⟩ := exists_ofLists_eq hclasses
  exact ⟨others, hothers ▸ beq_replaceClass ht, hothers ▸ not_replaceClass_beq hs⟩

/-- **What the comparison decides**, for partitions given by any lists of classes. It is reflexive
and transitive. Partitions that agree one way agree the other way iff the same sets occur as
classes. A partition in which no class occurs twice agrees with those in which the same sets occur,
each of them once; and these are the partitions that agree with all that they agree with in the
other direction too, as long as there is a further class. -/
theorem beq_refl_and_trans_and_symm_iff (ks ls ms : List (List α)) :
    (ofLists ks == ofLists ks) = true ∧
      ((ofLists ks == ofLists ls) = true → (ofLists ls == ofLists ms) = true →
        (ofLists ks == ofLists ms) = true) ∧
      ((ofLists ks == ofLists ls) = true →
        ((ofLists ls == ofLists ks) = true ↔ SameClasses (ofLists ks) (ofLists ls))) ∧
      ((ofLists ks).classes.Nodup → ((ofLists ks == ofLists ls) = true ↔
        (ofLists ls).classes.Nodup ∧ SameClasses (ofLists ks) (ofLists ls))) ∧
      ∀ s : OrderedSet α, s.isEmpty = false → s ∉ (ofLists ks).classes →
        ((∀ others, (ofLists ks == ofLists others) = true →
          (ofLists others == ofLists ks) = true) ↔ (ofLists ks).classes.Nodup) := by
  refine ⟨beq_refl _, beq_trans, beq_symm_iff, beq_iff_sameClasses, fun s hempty hs => ?_⟩
  constructor
  · intro hsymm
    by_contra hn
    obtain ⟨others, h, h'⟩ := exists_beq_of_not_nodup hn hs hempty
    exact h' (hsymm others h)
  · intro hn others h
    exact (beq_symm_iff h).mpr ((beq_iff_sameClasses hn).mp h).2

/-- `{1}, {1}` agrees with `{1}, {2}`, which does not agree with it. -/
theorem not_beq_symm_of_repeated_class :
    ¬ ∀ ks ls : List (List Int), (ofLists ks == ofLists ls) = true →
      (ofLists ls == ofLists ks) = true := fun hsymm =>
  absurd (hsymm [[1], [1]] [[1], [2]] (by decide)) (by decide)

/-- The classes `{1, 2}` and `{3}` in either order, and the class `{1}` twice. -/
theorem beq_of_reordered :
    (ofLists [[2, 1], [3]] == ofLists [[3], [1, 2, (2 : Int)]]) = true ∧
      (∀ others, (ofLists [[2, 1], [3]] == ofLists others) = true →
        (ofLists others == ofLists [[2, 1], [(3 : Int)]]) = true) ∧
      ¬ ∀ others, (ofLists [[1], [1]] == ofLists others) = true →
        (ofLists others == ofLists [[1], [(1 : Int)]]) = true := by
  obtain ⟨-, -, -, hsame, hsymm⟩ :=
    beq_refl_and_trans_and_symm_iff [[2, 1], [3]] [[3], [1, 2, (2 : Int)]] []
  obtain ⟨-, -, -, -, hrepeated⟩ := beq_refl_and_trans_and_symm_iff [[1], [(1 : Int)]] [] []
  refine ⟨(hsame (by decide)).mpr ⟨by decide, fun s => ?_⟩,
    (hsymm (.ofList [4]) (by decide) (by decide)).mpr (by decide),
    mt (hrepeated (.ofList [4]) (by decide) (by decide)).mp (by decide)⟩
  have hperm : (ofLists [[2, 1], [3]]).classes.Perm
      (ofLists [[3], [1, 2, (2 : Int)]]).classes := by decide
  exact hperm.mem_iff

end RegularLanguages.Partition
