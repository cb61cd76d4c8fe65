import RegularLanguages.Proofs.Automaton.Merging
import RegularLanguages.Proofs.OrderedSet

/-!
# The Nerode partition

The classes of the Nerode partition are the blocks that the refinement loop finds in the completed
automaton. So they make up its states, and two states share a class iff they accept the same words.
The loop itself finds the coarsest stable partition of any table, not only of those that come from
automata.

Results:
* `nerodePartition_cover`, `nerodePartition_disjoint`, `exists_mem_of_mem_classes`: the classes are
  a partition of the states of the completed automaton.
* **`exists_class_iff_equivalent`**: which states share a class.
* **`nerodePartition_classes_and_refine_coarsest`**: both together, and the loop for any table.
-/

namespace RegularLanguages

namespace Partition

variable {α : Type} [Ord α] [Std.TransOrd α] [Std.LawfulEqOrd α] {classes : List (List α)}

theorem ofList_isEmpty_eq_false {block : List α} :
    (OrderedSet.ofList block).isEmpty = false ↔ block ≠ [] := by
  rw [← Bool.not_eq_true, OrderedSet.isEmpty_iff, ne_eq, List.eq_nil_iff_forall_not_mem]
  simp only [OrderedSet.mem_ofList]

theorem mem_classes_ofLists {s : OrderedSet α} :
    s ∈ (ofLists classes).classes ↔ ∃ block ∈ classes, block ≠ [] ∧ .ofList block = s := by
  simp only [ofLists, List.mem_filter, List.mem_map, Bool.not_eq_true']
  constructor
  · rintro ⟨⟨block, hb, rfl⟩, hne⟩
    exact ⟨block, hb, ofList_isEmpty_eq_false.mp hne, rfl⟩
  · rintro ⟨block, hb, hne, rfl⟩
    exact ⟨⟨block, hb, rfl⟩, ofList_isEmpty_eq_false.mpr hne⟩

/-- Lists without common entries give classes without common members. -/
theorem pairwise_classes_ofLists (h : classes.Pairwise List.Disjoint) :
    (ofLists classes).classes.Pairwise fun s t => ∀ q ∈ s, q ∉ t := by
  refine List.Pairwise.filter _ (List.pairwise_map.mpr (h.imp fun {b c} hbc q hb hc => ?_))
  exact hbc (OrderedSet.mem_ofList.mp hb) (OrderedSet.mem_ofList.mp hc)

end Partition

namespace Automaton

variable {A D : Automaton} {p q : State}

/-! ## The classes are the blocks -/

theorem mem_classes (hA : A.Valid) {s : OrderedSet State} :
    s ∈ A.nerodePartition.classes ↔ ∃ block ∈ A.complete.blocks, .ofList block = s := by
  rw [nerodePartition, Partition.mem_classes_ofLists]
  refine exists_congr fun block => and_congr_right fun hb => and_iff_right ?_
  exact (blocks_partitions (complete_total hA)).ne_nil block hb

/-- No class is empty. -/
theorem exists_mem_of_mem_classes (hA : A.Valid) {s : OrderedSet State}
    (hs : s ∈ A.nerodePartition.classes) : ∃ q, q ∈ s := by
  obtain ⟨block, hb, rfl⟩ := (mem_classes hA).mp hs
  obtain ⟨q, hq⟩ := List.exists_mem_of_ne_nil block
    ((blocks_partitions (complete_total hA)).ne_nil block hb)
  exact ⟨q, OrderedSet.mem_ofList.mpr hq⟩

/-- No two classes have a common member. -/
theorem nerodePartition_disjoint (hA : A.Valid) :
    A.nerodePartition.classes.Pairwise fun s t => ∀ q ∈ s, q ∉ t :=
  Partition.pairwise_classes_ofLists
    ((blocks_partitions (complete_total hA)).disjoint A.complete.states.nodup_toList)

/-- Sharing a class is being in one block. -/
theorem exists_class_iff_together (hA : A.Valid) :
    (∃ s ∈ A.nerodePartition.classes, p ∈ s ∧ q ∈ s) ↔
      Refinement.Together A.complete.blocks p q := by
  constructor
  · rintro ⟨s, hs, hp, hq⟩
    obtain ⟨block, hb, rfl⟩ := (mem_classes hA).mp hs
    exact ⟨block, hb, OrderedSet.mem_ofList.mp hp, OrderedSet.mem_ofList.mp hq⟩
  · rintro ⟨block, hb, hp, hq⟩
    exact ⟨_, (mem_classes hA).mpr ⟨block, hb, rfl⟩, OrderedSet.mem_ofList.mpr hp,
      OrderedSet.mem_ofList.mpr hq⟩

/-- The classes cover the states of the completed automaton, and nothing else. -/
theorem nerodePartition_cover (hA : A.Valid) :
    q ∈ A.complete.states ↔ ∃ s ∈ A.nerodePartition.classes, q ∈ s := by
  have hblocks := blocks_partitions (complete_total hA)
  constructor
  · intro hq
    obtain ⟨block, hb, hqb⟩ := hblocks.exists_block hq
    exact ⟨_, (mem_classes hA).mpr ⟨block, hb, rfl⟩, OrderedSet.mem_ofList.mpr hqb⟩
  · rintro ⟨s, hs, hq⟩
    obtain ⟨block, hb, rfl⟩ := (mem_classes hA).mp hs
    exact hblocks.mem_states hb (OrderedSet.mem_ofList.mp hq)

/-! ## What sharing a class means -/

/-- Words with other symbols are accepted by no state, so only words over the alphabet count. -/
theorem equivalent_iff_over_alphabet (hD : D.Valid) : D.Equivalent p q ↔
    ∀ w : Word, (∀ c ∈ w, c ∈ D.alphabet) → (D.languageFrom p w ↔ D.languageFrom q w) := by
  refine ⟨fun h w _ => h w, fun h w => ?_⟩
  by_cases hw : ∀ c ∈ w, c ∈ D.alphabet
  · exact h w hw
  · have hrejects (r : State) : ¬ D.languageFrom r w := fun ⟨_, _, hpath⟩ =>
      hw (path_symbol_mem hD hpath)
    exact iff_of_false (hrejects p) (hrejects q)

/-- **Two states share a class iff they accept the same words.** -/
theorem exists_class_iff_equivalent (hA : A.Valid) (hp : p ∈ A.complete.states)
    (hq : q ∈ A.complete.states) :
    (∃ s ∈ A.nerodePartition.classes, p ∈ s ∧ q ∈ s) ↔ A.complete.Equivalent p q := by
  rw [exists_class_iff_together hA, equivalent_iff_together (complete_total hA) hp hq]

/-- **The Nerode partition** has as classes the sets of states of the completed automaton that
accept the same words over the alphabet. The loop that finds it ends for every table, after at most
one round more than there are states, with the coarsest partition that separates accepting from
rejecting states and is stable under every symbol. -/
theorem nerodePartition_classes_and_refine_coarsest (hA : A.Valid) :
    (A.complete.Total ∧
      (∀ s ∈ A.nerodePartition.classes, ∃ q, q ∈ s) ∧
      A.nerodePartition.classes.Pairwise (fun s t => ∀ q ∈ s, q ∉ t) ∧
      (∀ q, q ∈ A.complete.states ↔ ∃ s ∈ A.nerodePartition.classes, q ∈ s) ∧
      ∀ p ∈ A.complete.states, ∀ q ∈ A.complete.states,
        ((∃ s ∈ A.nerodePartition.classes, p ∈ s ∧ q ∈ s) ↔
          ∀ w : Word, (∀ c ∈ w, c ∈ A.alphabet) →
            (A.complete.languageFrom p w ↔ A.complete.languageFrom q w))) ∧
    ∀ (σ ι : Type) [DecidableEq σ] [Hashable σ] (symbols : List ι) (next : σ → ι → σ)
      (accepting : σ → Bool) (states : List σ), states.Nodup →
      (∀ q ∈ states, ∀ a ∈ symbols, next q a ∈ states) →
        (∀ fuel, states.length < fuel →
          Refinement.rounds symbols next fuel (Refinement.start accepting states) =
            ⟨Refinement.refine symbols next accepting states, []⟩) ∧
        Refinement.CoarsestStable symbols next accepting states
          (Refinement.refine symbols next accepting states) := by
  constructor
  · refine ⟨complete_total hA, fun s => exists_mem_of_mem_classes hA, nerodePartition_disjoint hA,
      fun q => nerodePartition_cover hA, fun p hp q hq => ?_⟩
    rw [exists_class_iff_equivalent hA hp hq,
      equivalent_iff_over_alphabet (complete_total hA).valid, alphabet_complete]
  · intro σ ι _ _ symbols next accepting states hn hclosed
    exact ⟨fun fuel => Refinement.rounds_eq_refine hn hclosed,
      Refinement.refine_coarsest hn hclosed⟩

/-- Two states that the empty word tells apart are in different classes, and four numbers that go
around in steps of two are divided into the even and the odd ones. -/
theorem nerodePartition_alternating :
    let A : Automaton :=
      { states := .ofList [⟨"p"⟩, ⟨"q"⟩]
        alphabet := .ofList ['a']
        edges := .ofList [⟨⟨"p"⟩, .symbol 'a', ⟨"q"⟩⟩, ⟨⟨"q"⟩, .symbol 'a', ⟨"p"⟩⟩]
        initial := some ⟨"p"⟩
        finals := .ofList [⟨"q"⟩] }
    let next (i : Nat) (_ : Unit) : Nat := (i + 2) % 4
    A.Valid ∧ (¬ ∃ s ∈ A.nerodePartition.classes, ⟨"p"⟩ ∈ s ∧ ⟨"q"⟩ ∈ s) ∧
      (∀ i ∈ [0, 1, 2, 3], ∀ a ∈ [()], next i a ∈ [0, 1, 2, 3]) ∧
      Refinement.Together (Refinement.refine [()] next (· % 2 == 0) [0, 1, 2, 3]) 1 3 := by
  intro A next
  have hA : A.Valid := by decide
  have hcomplete : A.complete = A := by decide
  have hdet : A.Deterministic := isDeterministic_iff.mp (by decide)
  have hclosed : ∀ i ∈ [0, 1, 2, 3], ∀ a ∈ [()], next i a ∈ [0, 1, 2, 3] := by decide
  have hclasses := (nerodePartition_classes_and_refine_coarsest hA).1
  have htable := (nerodePartition_classes_and_refine_coarsest hA).2 Nat Unit [()] next
    (· % 2 == 0) [0, 1, 2, 3] (by decide) hclosed
  refine ⟨hA, fun hshared => ?_, hclosed, ?_⟩
  · have hsame := (hclasses.2.2.2.2 ⟨"p"⟩ (hcomplete ▸ by decide) ⟨"q"⟩
      (hcomplete ▸ by decide)).mp hshared [] (by simp)
    rw [hcomplete, languageFrom_nil hdet, languageFrom_nil hdet] at hsame
    exact absurd hsame (by decide)
  · refine htable.2.coarsest (fun i j => i % 2 = j % 2) (fun i j hij => by rw [hij])
      (fun i j hij _ _ => ?_) 1 (by decide) 3 (by decide) rfl
    show (i + 2) % 4 % 2 = (j + 2) % 4 % 2
    omega

end Automaton

end RegularLanguages
