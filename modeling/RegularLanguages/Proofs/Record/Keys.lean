import Mathlib.Data.List.Nodup
import RegularLanguages.Record.Meaning

/-!
# Putting entries under their keys

Entries are put one by one into a list that is ordered by its keys. The list stays ordered, and if
no key comes twice it ends up with exactly these entries. So entries that are in order already come
out as they went in.

Results:
* `increasingKeys_insertKey`, `insertKey_perm`: one entry.
* `increasingKeys_collect`, **`collect_perm`**, `mem_collect_map`: all entries.
* **`collect_eq_self`**: entries that are in order.
-/

namespace RegularLanguages.Record

variable {α : Type} {key : String} {value : α} {x : String × α} {entries : List (String × α)}

/-- The list of the given entries, put in one by one. A later entry replaces an earlier one with
its key. -/
def collect (entries : List (String × α)) : List (String × α) :=
  entries.foldl (fun entries x => insertKey x.1 x.2 entries) []

/-! ## One entry -/

theorem key_of_mem_insertKey : ∀ {entries : List (String × α)},
    x ∈ insertKey key value entries → x.1 = key ∨ x ∈ entries
  | [], h => Or.inl (congrArg Prod.fst (List.mem_singleton.mp h))
  | (k, v) :: rest, h => by
    unfold insertKey at h
    split at h
    · exact (List.mem_cons.mp h).imp_left (congrArg Prod.fst)
    · exact (List.mem_cons.mp h).imp (congrArg Prod.fst) (List.mem_cons_of_mem _)
    · rcases List.mem_cons.mp h with rfl | h
      · exact Or.inr List.mem_cons_self
      · exact (key_of_mem_insertKey h).imp_right (List.mem_cons_of_mem _)

/-- The list stays in order. -/
theorem increasingKeys_insertKey : ∀ {entries : List (String × α)},
    IncreasingKeys entries → IncreasingKeys (insertKey key value entries)
  | [], _ => List.pairwise_singleton _ _
  | (k, v) :: rest, h => by
    obtain ⟨hk, hrest⟩ := List.pairwise_cons.mp h
    unfold insertKey
    split
    · rename_i hlt
      refine List.pairwise_cons.mpr ⟨fun y hy => ?_, h⟩
      rcases List.mem_cons.mp hy with rfl | hy
      · exact hlt
      · exact Std.TransCmp.lt_trans hlt (hk y hy)
    · rename_i heq
      obtain rfl := Std.LawfulEqCmp.eq_of_compare heq
      exact List.pairwise_cons.mpr ⟨hk, hrest⟩
    · rename_i hgt
      refine List.pairwise_cons.mpr ⟨fun y hy => ?_, increasingKeys_insertKey hrest⟩
      rcases key_of_mem_insertKey hy with rfl | hy
      · exact Std.OrientedCmp.lt_of_gt hgt
      · exact hk y hy

/-- An entry with a new key is added to the others. -/
theorem insertKey_perm : ∀ {entries : List (String × α)}, key ∉ entries.map Prod.fst →
    (insertKey key value entries).Perm ((key, value) :: entries)
  | [], _ => List.Perm.refl _
  | (k, v) :: rest, h => by
    obtain ⟨hk, hrest⟩ := List.ne_and_not_mem_of_not_mem_cons h
    unfold insertKey
    split
    · exact List.Perm.refl _
    · rename_i heq
      exact absurd (Std.LawfulEqCmp.eq_of_compare heq) hk
    · exact ((insertKey_perm hrest).cons (k, v)).trans (List.Perm.swap _ _ _)

/-! ## All entries -/

theorem increasingKeys_foldl : ∀ (entries : List (String × α)) {old : List (String × α)},
    IncreasingKeys old →
      IncreasingKeys (entries.foldl (fun entries x => insertKey x.1 x.2 entries) old)
  | [], _, h => h
  | _ :: entries, _, h => increasingKeys_foldl entries (increasingKeys_insertKey h)

theorem increasingKeys_collect (entries : List (String × α)) : IncreasingKeys (collect entries) :=
  increasingKeys_foldl entries List.Pairwise.nil

/-- Entries with different keys that are all new are added to the others. -/
theorem foldl_insertKey_perm : ∀ (entries old : List (String × α)),
    (entries.map Prod.fst).Nodup → (∀ x ∈ entries, x.1 ∉ old.map Prod.fst) →
      (entries.foldl (fun entries x => insertKey x.1 x.2 entries) old).Perm (entries ++ old)
  | [], _, _, _ => List.Perm.refl _
  | x :: entries, old, hkeys, hnew => by
    obtain ⟨hx, hkeys⟩ := List.nodup_cons.mp hkeys
    have hinsert : (insertKey x.1 x.2 old).Perm (x :: old) :=
      insertKey_perm (hnew x List.mem_cons_self)
    refine (foldl_insertKey_perm entries _ hkeys fun y hy hmem => ?_).trans
      ((hinsert.append_left entries).trans List.perm_middle)
    rcases List.mem_cons.mp ((hinsert.map Prod.fst).mem_iff.mp hmem) with he | hold
    · exact hx (he ▸ List.mem_map_of_mem hy)
    · exact hnew y (List.mem_cons_of_mem x hy) hold

/-- **Entries with different keys are collected without loss.** -/
theorem collect_perm (h : (entries.map Prod.fst).Nodup) : (collect entries).Perm entries := by
  have hperm := foldl_insertKey_perm entries [] h fun x _ => List.not_mem_nil
  rwa [List.append_nil] at hperm

theorem collect_map {β : Type} (xs : List β) (name : β → String) (f : β → α) :
    collect (xs.map fun x => (name x, f x)) =
      xs.foldl (fun entries x => insertKey (name x) (f x) entries) [] := List.foldl_map

/-- Values that are put in by the names of what they belong to. -/
theorem mem_collect_map {β : Type} {xs : List β} {name : β → String} {f : β → α}
    (hxs : xs.Nodup) (hname : ∀ x ∈ xs, ∀ y ∈ xs, name x = name y → x = y) {e : String × α} :
    e ∈ collect (xs.map fun x => (name x, f x)) ↔ ∃ x ∈ xs, (name x, f x) = e := by
  have hkeys : ((xs.map fun x => (name x, f x)).map Prod.fst).Nodup := by
    rw [List.map_map]
    exact hxs.map_on hname
  rw [(collect_perm hkeys).mem_iff, List.mem_map]

theorem IncreasingKeys.nodup (h : IncreasingKeys entries) : (entries.map Prod.fst).Nodup := by
  refine List.pairwise_map.mpr (h.imp fun {x y} hlt heq => ?_)
  simp [heq] at hlt

/-- **Entries that are in order come out as they went in.** -/
theorem collect_eq_self (h : IncreasingKeys entries) : collect entries = entries := by
  refine List.Perm.eq_of_pairwise (fun x y _ _ hxy hyx => ?_) (increasingKeys_collect entries) h
    (collect_perm h.nodup)
  have hxx : compare x.1 x.1 = .lt := Std.TransCmp.lt_trans hxy hyx
  simp at hxx

end RegularLanguages.Record
