import Mathlib.Data.List.Nodup
import Mathlib.Data.List.Perm.Subperm
import Mathlib.Tactic.Choose
import RegularLanguages.OrderedSet

/-!
# The list of a finite set

The increasing list of a set has no repetitions, and the list of a subset is a sublist. So sets
are counted by comparing lists (`size_eq_length`): a set with a new member, two sets without common
members, the image of a set.
-/

namespace RegularLanguages.OrderedSet

variable {α β : Type} [Ord α] [Ord β]

theorem isEmpty_iff {s : OrderedSet α} : s.isEmpty = true ↔ ∀ x, x ∉ s := by
  rw [isEmpty, List.isEmpty_iff, List.eq_nil_iff_forall_not_mem]
  exact Iff.rfl

theorem isEmpty_iff_size_eq_zero {s : OrderedSet α} : s.isEmpty = true ↔ s.size = 0 :=
  List.isEmpty_iff_length_eq_zero

theorem exists_mem_of_not_isEmpty {s : OrderedSet α} (h : ¬ s.isEmpty = true) : ∃ x, x ∈ s := by
  rw [isEmpty_iff] at h
  exact not_forall_not.mp h

variable [Std.LawfulEqOrd α]

theorem nodup_toList (s : OrderedSet α) : s.toList.Nodup :=
  s.sorted.imp fun {a b} h hab => by
    subst hab
    simp at h

theorem size_le_one_iff {s : OrderedSet α} : s.size ≤ 1 ↔ ∀ x ∈ s, ∀ y ∈ s, x = y := by
  obtain ⟨l, hl⟩ := s
  match l with
  | [] => exact iff_of_true (Nat.zero_le 1) fun x hx => nomatch hx
  | [z] =>
    refine iff_of_true (Nat.le_refl 1) fun x hx y hy => ?_
    exact (List.mem_singleton.mp hx).trans (List.mem_singleton.mp hy).symm
  | x :: y :: l =>
    refine iff_of_false (by simp [size]) fun h => ?_
    have hxy : compare x y = .lt := List.rel_of_pairwise_cons hl List.mem_cons_self
    rw [h x List.mem_cons_self y (List.mem_cons_of_mem x List.mem_cons_self)] at hxy
    simp at hxy

/-- A set is at most as large as another one if every member has a partner there that it shares
with no other member. -/
theorem size_le_of_partners {s : OrderedSet α} {t : OrderedSet β} {R : α → β → Prop}
    (hex : ∀ x ∈ s, ∃ y ∈ t, R x y)
    (hinj : ∀ x ∈ s, ∀ x' ∈ s, ∀ y, R x y → R x' y → x = x') : s.size ≤ t.size := by
  choose f hf hR using hex
  let partners := s.toList.attach.map fun x => f x.1 x.2
  have hn : partners.Nodup := by
    refine List.Nodup.map_on (fun x _ x' _ he => Subtype.ext ?_) s.nodup_toList.attach
    exact hinj x.1 x.2 x'.1 x'.2 (f x.1 x.2) (hR x.1 x.2) (he ▸ hR x'.1 x'.2)
  have hsub : partners ⊆ t.toList := by
    intro y hy
    obtain ⟨x, _, rfl⟩ := List.mem_map.mp hy
    exact hf x.1 x.2
  have hle := (List.subperm_of_subset hn hsub).length_le
  rwa [List.length_map, List.length_attach] at hle

/-- A set has as many members as a list without repetitions that has the same entries. -/
theorem size_eq_length {s : OrderedSet α} {xs : List α} (hn : xs.Nodup)
    (h : ∀ x, x ∈ s ↔ x ∈ xs) : s.size = xs.length :=
  ((List.perm_ext_iff_of_nodup (nodup_toList s) hn).mpr h).length_eq

/-- Under a map that keeps different members apart a set keeps its size. -/
theorem size_map [Std.TransOrd β] [Std.LawfulEqOrd β] {s : OrderedSet α} {f : α → β}
    (hf : ∀ x ∈ s, ∀ y ∈ s, f x = f y → x = y) : (s.map f).size = s.size := by
  have hn : (s.toList.map f).Nodup :=
    List.Nodup.map_on (fun x hx y hy => hf x hx y hy) s.nodup_toList
  exact (size_eq_length hn fun _ => mem_ofList).trans (List.length_map f)

variable [Std.TransOrd α]

theorem union_empty (s : OrderedSet α) : s ∪ ∅ = s := ext_mem fun x => by simp

/-- Inserting the entries of a list one by one. -/
theorem foldl_insert : ∀ (xs : List α) (s : OrderedSet α), xs.foldl insert s = ofList xs ∪ s
  | [], s => ext_mem fun x => by simp
  | x :: xs, s => by
    rw [List.foldl_cons, foldl_insert xs]
    refine ext_mem fun y => ?_
    simp only [mem_union, mem_insert, mem_ofList, List.mem_cons]
    exact or_left_comm.trans or_assoc.symm

@[simp] theorem ofList_toList (s : OrderedSet α) : ofList s.toList = s :=
  ext_mem fun _ => mem_ofList

/-- The list of a subset is a sublist. -/
theorem toList_sublist {s t : OrderedSet α} [DecidableEq α] (h : ∀ x ∈ s, x ∈ t) :
    s.toList.Sublist t.toList := by
  have hs : s = t.filter (· ∈ s) := ext_mem fun x => by
    rw [mem_filter, decide_eq_true_eq]
    exact ⟨fun hx => ⟨h x hx, hx⟩, fun hx => hx.2⟩
  rw [hs]
  exact List.filter_sublist

/-- A subset is the whole set iff it has as many members. -/
theorem size_eq_iff {s t : OrderedSet α} [DecidableEq α] (h : ∀ x ∈ s, x ∈ t) :
    s.size = t.size ↔ ∀ x ∈ t, x ∈ s := by
  constructor
  · intro hsize x hx
    have hlist : s.toList = t.toList := (toList_sublist h).eq_of_length hsize
    exact mem_toList.mp (hlist ▸ mem_toList.mpr hx)
  · intro hall
    rw [ext_mem fun x => ⟨h x, hall x⟩]

/-- A set given by a list without repetitions has as many members as the list has entries. -/
theorem size_ofList {xs : List α} (h : xs.Nodup) : (ofList xs).size = xs.length :=
  size_eq_length h fun _ => mem_ofList

theorem size_insert {s : OrderedSet α} {x : α} (h : x ∉ s) : (s.insert x).size = s.size + 1 :=
  size_eq_length (List.nodup_cons.mpr ⟨h, s.nodup_toList⟩) fun _ =>
    mem_insert.trans List.mem_cons.symm

/-- Sets without common members have as many members together as each has on its own. -/
theorem size_union {s t : OrderedSet α} (h : ∀ x ∈ s, x ∉ t) :
    (s ∪ t).size = s.size + t.size := by
  have hn : (s.toList ++ t.toList).Nodup :=
    List.nodup_append.mpr ⟨s.nodup_toList, t.nodup_toList, fun x hx y hy he => h x hx (he ▸ hy)⟩
  rw [size_eq_length hn fun _ => mem_union.trans List.mem_append.symm, List.length_append]
  rfl

/-- The last entry of the list is the greatest member. -/
theorem getLast?_toList_eq_some_iff {s : OrderedSet α} {x : α} :
    s.toList.getLast? = some x ↔ x ∈ s ∧ ∀ y ∈ s, ¬ compare x y = .lt := by
  rw [List.getLast?_eq_some_iff]
  constructor
  · rintro ⟨ys, hys⟩
    have hsorted := hys ▸ s.sorted
    obtain ⟨-, -, hlast⟩ := List.pairwise_append.mp hsorted
    refine ⟨mem_toList.mp (hys ▸ by simp), fun y hy hlt => ?_⟩
    rw [← mem_toList, hys, List.mem_append, List.mem_singleton] at hy
    rcases hy with hy | rfl
    · have hself := Std.TransCmp.lt_trans hlt (hlast y hy x List.mem_cons_self)
      simp at hself
    · simp at hlt
  · rintro ⟨hx, hlast⟩
    obtain ⟨ys, zs, hsplit⟩ := List.append_of_mem hx
    have hsorted := hsplit ▸ s.sorted
    have hzs : zs = [] := by
      refine List.eq_nil_iff_forall_not_mem.mpr fun z hz => hlast z ?_ ?_
      · exact mem_toList.mp (hsplit ▸ by simp [hz])
      · exact (List.pairwise_cons.mp (List.pairwise_append.mp hsorted).2.1).1 z hz
    exact ⟨ys, hzs ▸ hsplit⟩

end RegularLanguages.OrderedSet
