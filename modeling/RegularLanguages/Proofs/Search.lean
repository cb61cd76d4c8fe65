import Mathlib.Data.List.Perm.Subperm
import Mathlib.Tactic.Set
import Mathlib.Tactic.Tauto
import Std.Data.HashSet.Lemmas
import RegularLanguages.Search

/-!
# What breadth first search finds

The search is correct for every graph of moves, as soon as its fuel is at least the length of
some list that has all roots and is closed under the moves (`Bounded`).

Results:
* **`reachable_eq`**: the vertices found are the roots and then the targets of the vertices
  found, in this order and each once. This is the order of discovery, written as an equation.
* **`mem_reachable_iff`**: a vertex is found iff moves lead to it from a root.
* `eq_of_eq_discoveredFrom`: no other list of reachable vertices satisfies this equation.
* `reachable_of_le`: more fuel finds nothing more.
* `nodup_reachable`: no vertex is found twice.
* `reachable_map`: the search of a renamed graph finds the renamed vertices in the same order.
-/

namespace RegularLanguages.Search

variable {σ ℓ : Type}

/-- Reachability along the moves from one of the roots, labels forgotten. -/
inductive Reaches (moves : σ → List (ℓ × σ)) (roots : List σ) : σ → Prop
  | root {v : σ} : v ∈ roots → Reaches moves roots v
  | step {u v : σ} {a : ℓ} : Reaches moves roots u → (a, v) ∈ moves u → Reaches moves roots v

/-- Where the moves of a vertex lead, in order. -/
def targets (moves : σ → List (ℓ × σ)) (v : σ) : List σ := (moves v).map (·.2)

theorem mem_targets {moves : σ → List (ℓ × σ)} {u v : σ} :
    v ∈ targets moves u ↔ ∃ a, (a, v) ∈ moves u := by
  simp [targets]

/-- The fuel is enough: some list of at most this length has the roots and is closed under the
moves. -/
def Bounded (moves : σ → List (ℓ × σ)) (fuel : Nat) (roots : List σ) : Prop :=
  ∃ all : List σ, (∀ v ∈ roots, v ∈ all) ∧ (∀ u ∈ all, ∀ v ∈ targets moves u, v ∈ all) ∧
    all.length ≤ fuel

section Steps

variable [BEq σ] [Hashable σ]

theorem discover_cons (x : σ) (xs : List σ) (seen : Std.HashSet σ) :
    discover (x :: xs) seen =
      if x ∈ seen then discover xs seen
      else (x :: (discover xs (seen.insert x)).1, (discover xs (seen.insert x)).2) := rfl

theorem discover_append : ∀ (xs ys : List σ) (seen : Std.HashSet σ),
    (discover (xs ++ ys) seen).1 =
      (discover xs seen).1 ++ (discover ys (discover xs seen).2).1
  | [], _, _ => rfl
  | x :: xs, ys, seen => by
    rw [List.cons_append, discover_cons, discover_cons]
    split
    · exact discover_append xs ys seen
    · rw [List.cons_append, discover_append xs ys]

theorem expand_cons (moves : σ → List (ℓ × σ)) (fuel : Nat) (seen : Std.HashSet σ) (x : σ)
    (queue : List σ) :
    expand moves (fuel + 1) seen (x :: queue) =
      (x, moves x) :: expand moves fuel (discover (targets moves x) seen).2
        (queue ++ (discover (targets moves x) seen).1) := rfl

/-- Every vertex is recorded with its own moves. -/
theorem expand_eq_map (moves : σ → List (ℓ × σ)) :
    ∀ (fuel : Nat) (seen : Std.HashSet σ) (queue : List σ),
      expand moves fuel seen queue =
        ((expand moves fuel seen queue).map (·.1)).map fun v => (v, moves v)
  | 0, _, _ => rfl
  | _ + 1, _, [] => rfl
  | fuel + 1, seen, x :: queue => by
    rw [expand_cons, List.map_cons, List.map_cons, ← expand_eq_map moves fuel]

theorem explore_eq_map (moves : σ → List (ℓ × σ)) (fuel : Nat) (roots : List σ) :
    explore moves fuel roots =
      (reachable moves fuel roots).map fun v => (v, moves v) :=
  expand_eq_map moves fuel _ _

end Steps

variable [BEq σ] [Hashable σ] [LawfulBEq σ]

/-! ## Discovering the entries of a list -/

theorem mem_discover_seen {z : σ} : ∀ {xs : List σ} {seen : Std.HashSet σ},
    z ∈ (discover xs seen).2 ↔ z ∈ xs ∨ z ∈ seen
  | [], seen => by simp [discover]
  | x :: xs, seen => by
    rw [discover_cons, List.mem_cons]
    split
    · rw [mem_discover_seen]
      grind
    · rw [mem_discover_seen, Std.HashSet.mem_insert]
      grind

theorem mem_discover {z : σ} : ∀ {xs : List σ} {seen : Std.HashSet σ},
    z ∈ (discover xs seen).1 ↔ z ∈ xs ∧ z ∉ seen
  | [], seen => by simp [discover]
  | x :: xs, seen => by
    rw [discover_cons, List.mem_cons]
    split
    · rw [mem_discover]
      grind
    · rw [List.mem_cons, mem_discover, Std.HashSet.mem_insert]
      grind

theorem nodup_discover : ∀ (xs : List σ) (seen : Std.HashSet σ), (discover xs seen).1.Nodup
  | [], _ => List.nodup_nil
  | x :: xs, seen => by
    rw [discover_cons]
    split
    · exact nodup_discover xs seen
    · refine List.nodup_cons.mpr ⟨fun h => ?_, nodup_discover xs _⟩
      exact (mem_discover.mp h).2 (Std.HashSet.mem_insert.mpr (Or.inl (beq_self_eq_true x)))

/-- Discovery keeps the first occurrence of every entry that has not been seen. -/
theorem discover_eq_eraseDups : ∀ (xs : List σ) (seen : Std.HashSet σ),
    (discover xs seen).1 = (xs.filter (· ∉ seen)).eraseDups
  | [], _ => rfl
  | x :: xs, seen => by
    rw [discover_cons, List.filter_cons]
    by_cases hx : x ∈ seen
    · simpa [hx] using discover_eq_eraseDups xs seen
    · have hrest : xs.filter (· ∉ seen.insert x) =
          (xs.filter (· ∉ seen)).filter fun z => !z == x := by
        rw [List.filter_filter]
        refine List.filter_congr fun z _ => ?_
        simp only [Std.HashSet.mem_insert]
        grind
      rw [if_neg hx, if_pos (by simpa using hx), List.eraseDups_cons,
        discover_eq_eraseDups xs (seen.insert x), hrest]

theorem discover_empty (xs : List σ) : (discover xs ∅).1 = xs.eraseDups := by
  rw [discover_eq_eraseDups, List.filter_eq_self.mpr (by simp)]

/-! ## The vertices that are expanded -/

/-- The invariant of the loop, with the vertices that are expanded already in `done`: what has
been seen is what has been expanded or waits, each vertex once. It carries the fuel, since the
vertices in `done` are at most as many as `all` has. -/
theorem expand_vertices (moves : σ → List (ℓ × σ)) (all : List σ)
    (hall : ∀ u ∈ all, ∀ v ∈ targets moves u, v ∈ all) :
    ∀ (fuel : Nat) (done : List σ) (seen : Std.HashSet σ) (queue : List σ),
      (done ++ queue).Nodup → (∀ v ∈ done ++ queue, v ∈ all) →
      (∀ v, v ∈ seen ↔ v ∈ done ++ queue) → all.length ≤ done.length + fuel →
      (expand moves fuel seen queue).map (·.1) = queue ++
        (discover (((expand moves fuel seen queue).map (·.1)).flatMap (targets moves)) seen).1
  | 0, done, seen, queue, hn, hsub, _, hle => by
    have hlen := (List.subperm_of_subset hn hsub).length_le
    rw [List.length_append] at hlen
    have hq : queue = [] := List.length_eq_zero_iff.mp (by omega)
    subst hq
    rfl
  | _ + 1, _, _, [], _, _, _, _ => rfl
  | fuel + 1, done, seen, x :: queue, hn, hsub, hseen, hle => by
    have hx : x ∈ all := hsub x (by simp)
    rw [List.append_cons] at hn hsub hseen
    set found := discover (targets moves x) seen with hfound
    have hn' : ((done ++ [x]) ++ (queue ++ found.1)).Nodup := by
      rw [← List.append_assoc]
      refine List.nodup_append.mpr ⟨hn, nodup_discover _ _, fun a ha b hb hab => ?_⟩
      subst hab
      exact (mem_discover.mp hb).2 ((hseen a).mpr ha)
    have hsub' : ∀ v ∈ (done ++ [x]) ++ (queue ++ found.1), v ∈ all := by
      intro v hv
      rw [← List.append_assoc] at hv
      rcases List.mem_append.mp hv with hv | hv
      · exact hsub v hv
      · exact hall x hx v (mem_discover.mp hv).1
    have hseen' : ∀ v, v ∈ found.2 ↔ v ∈ (done ++ [x]) ++ (queue ++ found.1) := by
      intro v
      rw [mem_discover_seen, ← List.append_assoc, List.mem_append, mem_discover, hseen]
      tauto
    have hle' : all.length ≤ (done ++ [x]).length + fuel := by
      rw [List.length_append, List.length_singleton]
      omega
    have ih := expand_vertices moves all hall fuel (done ++ [x]) found.2 (queue ++ found.1)
      hn' hsub' hseen' hle'
    rw [expand_cons, ← hfound, List.map_cons, List.flatMap_cons, discover_append, ← hfound,
      List.cons_append, ← List.append_assoc, ← ih]

/-- Whatever the fuel, only reachable vertices are expanded. -/
theorem expand_reaches {moves : σ → List (ℓ × σ)} {roots : List σ} :
    ∀ (fuel : Nat) (seen : Std.HashSet σ) (queue : List σ),
      (∀ v ∈ queue, Reaches moves roots v) →
      ∀ v ∈ (expand moves fuel seen queue).map (·.1), Reaches moves roots v
  | 0, _, _, _ => by simp [expand]
  | _ + 1, _, [], _ => by simp [expand]
  | fuel + 1, seen, x :: queue, hqueue => by
    intro v hv
    rw [expand_cons, List.map_cons, List.mem_cons] at hv
    have hx : Reaches moves roots x := hqueue x List.mem_cons_self
    rcases hv with rfl | hv
    · exact hx
    · refine expand_reaches fuel _ _ (fun u hu => ?_) v hv
      rcases List.mem_append.mp hu with hu | hu
      · exact hqueue u (List.mem_cons_of_mem x hu)
      · obtain ⟨a, ha⟩ := mem_targets.mp (mem_discover.mp hu).1
        exact Reaches.step hx ha

section Bounded

variable {moves : σ → List (ℓ × σ)} {fuel : Nat} {roots : List σ}

/-- The roots and the targets of the listed vertices, each at its first occurrence. -/
def discoveredFrom (moves : σ → List (ℓ × σ)) (roots xs : List σ) : List σ :=
  (roots ++ xs.flatMap (targets moves)).eraseDups

omit [Hashable σ] in
theorem mem_discoveredFrom {xs : List σ} {v : σ} :
    v ∈ discoveredFrom moves roots xs ↔ v ∈ roots ∨ ∃ u ∈ xs, v ∈ targets moves u := by
  rw [discoveredFrom, List.mem_eraseDups, List.mem_append, List.mem_flatMap]

theorem nodup_discoveredFrom (xs : List σ) : (discoveredFrom moves roots xs).Nodup := by
  rw [discoveredFrom, ← discover_empty]
  exact nodup_discover _ _

omit [Hashable σ] in
/-- An earlier part of a list leads to an earlier part of what the list leads to. -/
theorem discoveredFrom_mono {xs ys : List σ} (h : xs <+: ys) :
    discoveredFrom moves roots xs <+: discoveredFrom moves roots ys := by
  obtain ⟨rest, rfl⟩ := h
  unfold discoveredFrom
  rw [List.flatMap_append, ← List.append_assoc]
  generalize roots ++ xs.flatMap (targets moves) = found
  rw [List.eraseDups_append]
  exact List.prefix_append _ _

/-- **The order of discovery.** The vertices found are the roots, followed by the targets of the
vertices found, each at its first occurrence. -/
theorem reachable_eq (h : Bounded moves fuel roots) :
    reachable moves fuel roots = discoveredFrom moves roots (reachable moves fuel roots) := by
  obtain ⟨all, hroots, hall, hle⟩ := h
  have hexp := expand_vertices moves all hall fuel [] (discover roots ∅).2 (discover roots ∅).1
    (nodup_discover _ _) (fun v hv => hroots v (mem_discover.mp hv).1)
    (fun v => by rw [mem_discover_seen]; simp [mem_discover]) (by simpa using hle)
  rw [discoveredFrom, ← discover_empty, discover_append]
  exact hexp

theorem nodup_reachable (h : Bounded moves fuel roots) : (reachable moves fuel roots).Nodup := by
  rw [reachable_eq h]
  exact nodup_discoveredFrom _

/-- **The search finds exactly the reachable vertices.** -/
theorem mem_reachable_iff (h : Bounded moves fuel roots) {v : σ} :
    v ∈ reachable moves fuel roots ↔ Reaches moves roots v := by
  constructor
  · exact fun hv => expand_reaches fuel _ _
      (fun u hu => Reaches.root (mem_discover.mp hu).1) v hv
  · intro hv
    induction hv with
    | root hv =>
      rw [reachable_eq h]
      exact mem_discoveredFrom.mpr (Or.inl hv)
    | step _ ha ih =>
      rw [reachable_eq h]
      exact mem_discoveredFrom.mpr (Or.inr ⟨_, ih, mem_targets.mpr ⟨_, ha⟩⟩)

/-! ## No other order -/

/-- If a part of the list leads to no further vertices it has led to all of them. -/
theorem eq_discoveredFrom_take {xs : List σ} (hxs : xs = discoveredFrom moves roots xs)
    (hr : ∀ v ∈ xs, Reaches moves roots v) {k : Nat}
    (hk : (discoveredFrom moves roots (xs.take k)).length ≤ k) :
    xs = discoveredFrom moves roots (xs.take k) := by
  have hpre : discoveredFrom moves roots (xs.take k) <+: xs :=
    (discoveredFrom_mono (List.take_prefix k xs)).trans (hxs ▸ List.prefix_rfl)
  have hsub : ∀ v ∈ discoveredFrom moves roots (xs.take k), v ∈ xs.take k :=
    fun v hv => (List.prefix_take_iff.mpr ⟨hpre, hk⟩).subset hv
  have hall : ∀ v, Reaches moves roots v → v ∈ discoveredFrom moves roots (xs.take k) := by
    intro v hv
    induction hv with
    | root hv => exact mem_discoveredFrom.mpr (Or.inl hv)
    | step _ ha ih =>
      exact mem_discoveredFrom.mpr (Or.inr ⟨_, hsub _ ih, mem_targets.mpr ⟨_, ha⟩⟩)
  have hn : xs.Nodup := hxs ▸ nodup_discoveredFrom xs
  have hle := (List.subperm_of_subset hn fun v hv => hall v (hr v hv)).length_le
  exact (hpre.eq_of_length_le hle).symm

omit [BEq σ] [Hashable σ] [LawfulBEq σ] in
theorem take_eq_take {xs ys : List σ} (h : xs <+: ys) {k : Nat} (hk : k ≤ xs.length) :
    ys.take k = xs.take k := by
  obtain ⟨rest, rfl⟩ := h
  exact List.take_append_of_le_length hk

/-- **The order of discovery is determined by its equation**, for lists of reachable vertices. -/
theorem eq_of_eq_discoveredFrom {xs ys : List σ} (hxs : xs = discoveredFrom moves roots xs)
    (hys : ys = discoveredFrom moves roots ys) (hxr : ∀ v ∈ xs, Reaches moves roots v)
    (hyr : ∀ v ∈ ys, Reaches moves roots v) : xs = ys := by
  have htake : ∀ k, xs = ys ∨ xs.take k = ys.take k := by
    intro k
    induction k with
    | zero => exact Or.inr rfl
    | succ k ih =>
      rcases ih with h | h
      · exact Or.inl h
      · have hx : discoveredFrom moves roots (xs.take k) <+: xs :=
          (discoveredFrom_mono (List.take_prefix k xs)).trans (hxs ▸ List.prefix_rfl)
        have hy : discoveredFrom moves roots (xs.take k) <+: ys := by
          rw [h]
          exact (discoveredFrom_mono (List.take_prefix k ys)).trans (hys ▸ List.prefix_rfl)
        by_cases hk : (discoveredFrom moves roots (xs.take k)).length ≤ k
        · refine Or.inl ((eq_discoveredFrom_take hxs hxr hk).trans ?_)
          rw [h] at hk ⊢
          exact (eq_discoveredFrom_take hys hyr hk).symm
        · have hlt : k + 1 ≤ (discoveredFrom moves roots (xs.take k)).length := by omega
          exact Or.inr ((take_eq_take hx hlt).trans (take_eq_take hy hlt).symm)
  rcases htake (xs.length + ys.length) with h | h
  · exact h
  · rwa [List.take_of_length_le (by omega), List.take_of_length_le (by omega)] at h

/-- **More fuel finds nothing more**: a search with enough fuel has ended before it is used up. -/
theorem reachable_of_le (h : Bounded moves fuel roots) {more : Nat} (hle : fuel ≤ more) :
    reachable moves more roots = reachable moves fuel roots := by
  have hmore : Bounded moves more roots := by
    obtain ⟨all, hroots, hall, hlen⟩ := h
    exact ⟨all, hroots, hall, Nat.le_trans hlen hle⟩
  exact eq_of_eq_discoveredFrom (reachable_eq hmore) (reachable_eq h)
    (fun _ => (mem_reachable_iff hmore).mp) fun _ => (mem_reachable_iff h).mp

end Bounded

/-! ## Renamed graphs -/

section Map

variable {τ : Type} [BEq τ] [Hashable τ] [LawfulBEq τ] {f : σ → τ}

/-- Discovery commutes with a renaming that is injective on all vertices concerned. -/
theorem discover_map {P : σ → Prop} (hf : ∀ u v, P u → P v → f u = f v → u = v) :
    ∀ (xs : List σ) (seen : Std.HashSet σ) (seen' : Std.HashSet τ), (∀ x ∈ xs, P x) →
      (∀ v, P v → (f v ∈ seen' ↔ v ∈ seen)) →
      (discover (xs.map f) seen').1 = (discover xs seen).1.map f ∧
      ∀ v, P v → (f v ∈ (discover (xs.map f) seen').2 ↔ v ∈ (discover xs seen).2)
  | [], _, _, _, hseen => ⟨rfl, hseen⟩
  | x :: xs, seen, seen', hxs, hseen => by
    have hx : P x := hxs x List.mem_cons_self
    have hxs' : ∀ y ∈ xs, P y := fun y hy => hxs y (List.mem_cons_of_mem x hy)
    rw [List.map_cons, discover_cons, discover_cons]
    by_cases h : x ∈ seen
    · rw [if_pos h, if_pos ((hseen x hx).mpr h)]
      exact discover_map hf xs seen seen' hxs' hseen
    · rw [if_neg h, if_neg fun h' => h ((hseen x hx).mp h')]
      obtain ⟨h1, h2⟩ := discover_map hf xs (seen.insert x) (seen'.insert (f x)) hxs'
        fun v hv => by
          rw [Std.HashSet.mem_insert, Std.HashSet.mem_insert, beq_iff_eq, beq_iff_eq, hseen v hv]
          exact or_congr_left ⟨hf x v hx hv, congrArg f⟩
      exact ⟨congrArg (f x :: ·) h1, h2⟩

theorem expand_map {P : σ → Prop} (hf : ∀ u v, P u → P v → f u = f v → u = v)
    {moves : σ → List (ℓ × σ)} {moves' : τ → List (ℓ × τ)}
    (hP : ∀ u, P u → ∀ v ∈ targets moves u, P v)
    (hmoves : ∀ u, P u → targets moves' (f u) = (targets moves u).map f) :
    ∀ (fuel : Nat) (seen : Std.HashSet σ) (seen' : Std.HashSet τ) (queue : List σ),
      (∀ v ∈ queue, P v) → (∀ v, P v → (f v ∈ seen' ↔ v ∈ seen)) →
      (expand moves' fuel seen' (queue.map f)).map (·.1) =
        ((expand moves fuel seen queue).map (·.1)).map f
  | 0, _, _, _, _, _ => rfl
  | _ + 1, _, _, [], _, _ => rfl
  | fuel + 1, seen, seen', x :: queue, hqueue, hseen => by
    have hx : P x := hqueue x List.mem_cons_self
    obtain ⟨h1, h2⟩ := discover_map hf (targets moves x) seen seen' (hP x hx) hseen
    have hqueue' : ∀ v ∈ queue ++ (discover (targets moves x) seen).1, P v := by
      intro v hv
      rcases List.mem_append.mp hv with hv | hv
      · exact hqueue v (List.mem_cons_of_mem x hv)
      · exact hP x hx v (mem_discover.mp hv).1
    have ih := expand_map hf hP hmoves fuel _ _ _ hqueue' h2
    rw [List.map_cons, expand_cons, expand_cons, List.map_cons, List.map_cons, List.map_cons,
      ← ih, hmoves x hx, h1, List.map_append]

/-- **Renaming the graph renames what is found**: the search depends on the vertices only
through their moves. The renaming has to be injective on vertices satisfying `P`, among which
the search stays. -/
theorem reachable_map {P : σ → Prop} (hf : ∀ u v, P u → P v → f u = f v → u = v)
    {moves : σ → List (ℓ × σ)} {moves' : τ → List (ℓ × τ)}
    (hP : ∀ u, P u → ∀ v ∈ targets moves u, P v)
    (hmoves : ∀ u, P u → targets moves' (f u) = (targets moves u).map f)
    (fuel : Nat) {roots : List σ} (hroots : ∀ v ∈ roots, P v) :
    reachable moves' fuel (roots.map f) = (reachable moves fuel roots).map f := by
  obtain ⟨h1, h2⟩ := discover_map hf roots ∅ ∅ hroots (fun v _ => by simp)
  show (expand moves' fuel (discover (roots.map f) ∅).2 (discover (roots.map f) ∅).1).map (·.1) = _
  rw [h1]
  exact expand_map hf hP hmoves fuel _ _ _ (fun v hv => hroots v (mem_discover.mp hv).1) h2

end Map

end RegularLanguages.Search
