import Mathlib.Data.List.Nodup
import Mathlib.Data.List.Pairwise
import Mathlib.Tactic.Tauto
import Std.Data.HashSet.Lemmas
import RegularLanguages.Refinement

/-!
# Partition refinement finds the coarsest stable partition

The loop keeps three things, each preserved by a single cut of all blocks:

* `Sound`: the blocks make up the states, no block mixes accepting and rejecting states, and no
  block or waiting splitter separates states that no word tells apart.
* `Covered`: where two states of one block move into different blocks, one of these two waits as
  a splitter. This is why it is enough to queue one part of a block that was not waiting. While
  a splitter is in use there is an excuse for pairs that it will separate.
* `cutAll_count`: every cut adds as many splitters as blocks, and there are at most as many
  blocks as states. So the rounds suffice to use up all splitters.

Results:
* **`together_refine_iff`**: two states end up in one block iff every word leads from both to
  an accepting state or from both to a rejecting one.
* `refine_partition`: the blocks are not empty, keep the order of the states and make up them.
* **`rounds_eq_refine`**, **`refine_coarsest`**: the loop ends, and with the coarsest stable
  partition.
-/

namespace RegularLanguages.Refinement

variable {σ ι : Type}

/-- Both states are in one block. -/
def Together (blocks : List (List σ)) (p q : σ) : Prop := ∃ b ∈ blocks, p ∈ b ∧ q ∈ b

/-- No word over the symbols leads from one of the states to an accepting state and from the
other one to a rejecting state. -/
def Indistinguishable (symbols : List ι) (next : σ → ι → σ) (accepting : σ → Bool) (p q : σ) :
    Prop :=
  ∀ w : List ι, (∀ a ∈ w, a ∈ symbols) → accepting (w.foldl next p) = accepting (w.foldl next q)

theorem Indistinguishable.next {symbols : List ι} {next : σ → ι → σ} {accepting : σ → Bool}
    {p q : σ} (h : Indistinguishable symbols next accepting p q) {a : ι} (ha : a ∈ symbols) :
    Indistinguishable symbols next accepting (next p a) (next q a) := fun w hw =>
  h (a :: w) fun b hb => by
    rcases List.mem_cons.mp hb with rfl | hb
    · exact ha
    · exact hw b hb

/-! ## Cutting one block -/

/-- What a block becomes when it is cut. -/
def parts (inside : σ → Bool) (block : List σ) : List (List σ) :=
  if (block.filter inside).isEmpty || (block.filter fun q => !inside q).isEmpty then [block]
  else [block.filter inside, block.filter fun q => !inside q]

/-- A block stays whole if all its states are on one side, and otherwise becomes two. -/
theorem parts_cases (inside : σ → Bool) (block : List σ) :
    (parts inside block = [block] ∧ ∀ p ∈ block, ∀ q ∈ block, inside p = inside q) ∨
      (parts inside block = [block.filter inside, block.filter fun q => !inside q] ∧
        block.filter inside ≠ [] ∧ (block.filter fun q => !inside q) ≠ []) := by
  unfold parts
  split
  · rename_i h
    refine Or.inl ⟨rfl, fun p hp q hq => ?_⟩
    rw [Bool.or_eq_true, List.isEmpty_iff, List.isEmpty_iff, List.filter_eq_nil_iff,
      List.filter_eq_nil_iff] at h
    rcases h with h | h
    · rw [Bool.eq_false_iff.mpr (h p hp), Bool.eq_false_iff.mpr (h q hq)]
    · have hp' := h p hp
      have hq' := h q hq
      rw [Bool.not_eq_true', Bool.not_eq_false] at hp' hq'
      rw [hp', hq']
  · rename_i h
    rw [Bool.or_eq_true, List.isEmpty_iff, List.isEmpty_iff, not_or] at h
    exact Or.inr ⟨rfl, h.1, h.2⟩

theorem parts_flatten_perm (inside : σ → Bool) (block : List σ) :
    (parts inside block).flatten.Perm block := by
  rcases parts_cases inside block with ⟨h, _⟩ | ⟨h, _⟩
  · rw [h, List.flatten_singleton]
  · rw [h, List.flatten_cons, List.flatten_singleton]
    exact List.filter_append_perm inside block

theorem sublist_of_mem_parts {inside : σ → Bool} {block part : List σ}
    (h : part ∈ parts inside block) : part.Sublist block := by
  rcases parts_cases inside block with ⟨hp, _⟩ | ⟨hp, _⟩
  · rw [hp, List.mem_singleton] at h
    rw [h]
  · rw [hp, List.mem_cons, List.mem_singleton] at h
    rcases h with rfl | rfl
    · exact List.filter_sublist
    · exact List.filter_sublist

theorem ne_nil_of_mem_parts {inside : σ → Bool} {block part : List σ} (hb : block ≠ [])
    (h : part ∈ parts inside block) : part ≠ [] := by
  rcases parts_cases inside block with ⟨hp, _⟩ | ⟨hp, hy, hn⟩
  · rw [hp, List.mem_singleton] at h
    rwa [h]
  · rw [hp, List.mem_cons, List.mem_singleton] at h
    rcases h with rfl | rfl
    · exact hy
    · exact hn

/-- States of a block stay together iff they are on one side. -/
theorem together_parts_iff {inside : σ → Bool} {block : List σ} {p q : σ} :
    Together (parts inside block) p q ↔ (p ∈ block ∧ q ∈ block) ∧ inside p = inside q := by
  unfold Together
  rcases parts_cases inside block with ⟨h, hall⟩ | ⟨h, _⟩
  · simp only [h, List.mem_singleton, exists_eq_left]
    exact ⟨fun hpq => ⟨hpq, hall p hpq.1 q hpq.2⟩, fun hpq => hpq.1⟩
  · simp only [h, List.mem_cons, List.not_mem_nil, or_false, exists_eq_or_imp, exists_eq_left,
      List.mem_filter, Bool.not_eq_true']
    cases inside p <;> cases inside q <;> simp

/-- A part of a block is not among blocks that are disjoint from it. -/
theorem not_mem_of_mem_parts {inside : σ → Bool} {block part : List σ} {blocks : List (List σ)}
    (hne : block ≠ []) (hdisj : ∀ b ∈ blocks, block.Disjoint b) (h : part ∈ parts inside block) :
    part ∉ blocks := by
  intro hmem
  obtain ⟨q, hq⟩ := List.exists_mem_of_ne_nil part (ne_nil_of_mem_parts hne h)
  exact hdisj part hmem ((sublist_of_mem_parts h).subset hq) hq

variable [DecidableEq σ]

theorem replace_perm {block : List σ} : ∀ {waiting : List (List σ)}, block ∈ waiting →
    ∀ new, (waiting.replace block new).Perm (new :: waiting.erase block)
  | [], h, _ => absurd h List.not_mem_nil
  | top :: waiting, h, new => by
    by_cases htop : top = block
    · rw [htop, List.erase_cons_head, List.replace_cons_self]
    · have hmem : block ∈ waiting := (List.mem_cons.mp h).resolve_left (Ne.symm htop)
      have hne : (block == top) = false := beq_false_of_ne (Ne.symm htop)
      rw [List.erase_cons_tail (by simpa using htop), List.replace_cons, hne]
      exact ((replace_perm hmem new).cons top).trans (List.Perm.swap _ _ _)

/-- Taking a splitter out of the stack only moves others. -/
theorem swapRemove_perm {block : List σ} : ∀ {waiting : List (List σ)}, block ∈ waiting →
    (swapRemove block waiting).Perm (waiting.erase block)
  | [], h => absurd h List.not_mem_nil
  | top :: waiting, h => by
    rw [swapRemove]
    by_cases htop : top = block
    · rw [if_pos htop, htop, List.erase_cons_head]
    · have hmem : block ∈ waiting := (List.mem_cons.mp h).resolve_left (Ne.symm htop)
      rw [if_neg htop, List.erase_cons_tail (by simpa using htop)]
      exact replace_perm hmem top

theorem cutBlock_fst (inside : σ → Bool) (waiting : List (List σ)) (block : List σ) :
    (cutBlock inside waiting block).1 = parts inside block := by
  simp only [cutBlock, parts]
  split
  · rfl
  · split
    · rfl
    · split <;> rfl

/-- What cutting a block does to the splitters: nothing if it stays whole; a waiting block gives
way to its two parts; otherwise one of the parts starts to wait. -/
theorem cutBlock_snd (inside : σ → Bool) (waiting : List (List σ)) (block : List σ) :
    (parts inside block = [block] ∧ (cutBlock inside waiting block).2 = waiting) ∨
      ∃ yes no, parts inside block = [yes, no] ∧
        ((block ∈ waiting ∧
            (cutBlock inside waiting block).2.Perm (yes :: no :: waiting.erase block)) ∨
          (block ∉ waiting ∧ ((cutBlock inside waiting block).2 = yes :: waiting ∨
            (cutBlock inside waiting block).2 = no :: waiting))) := by
  simp only [cutBlock, parts]
  split
  · exact Or.inl ⟨rfl, rfl⟩
  · refine Or.inr ⟨_, _, rfl, ?_⟩
    split
    · rename_i hw
      have hrest := ((swapRemove_perm hw).cons (block.filter inside)).cons
        (block.filter fun q => !inside q)
      exact Or.inl ⟨hw, hrest.trans (List.Perm.swap _ _ _)⟩
    · rename_i hw
      split
      · exact Or.inr ⟨hw, Or.inl rfl⟩
      · exact Or.inr ⟨hw, Or.inr rfl⟩

theorem mem_cutBlock_of_ne {inside : σ → Bool} {waiting : List (List σ)} {block w : List σ}
    (hw : w ∈ waiting) (hne : w ≠ block) : w ∈ (cutBlock inside waiting block).2 := by
  rcases cutBlock_snd inside waiting block with ⟨_, h⟩ | ⟨yes, no, _, ⟨_, h⟩ | ⟨_, h | h⟩⟩
  · rwa [h]
  · rw [h.mem_iff]
    exact List.mem_cons_of_mem _ (List.mem_cons_of_mem _ ((List.mem_erase_of_ne hne).mpr hw))
  · rw [h]
    exact List.mem_cons_of_mem _ hw
  · rw [h]
    exact List.mem_cons_of_mem _ hw

/-- All parts of a waiting block wait. -/
theorem mem_cutBlock_of_mem_parts {inside : σ → Bool} {waiting : List (List σ)}
    {block part : List σ} (hw : block ∈ waiting) (h : part ∈ parts inside block) :
    part ∈ (cutBlock inside waiting block).2 := by
  rcases cutBlock_snd inside waiting block with ⟨hp, hs⟩ | ⟨yes, no, hp, ⟨_, hs⟩ | ⟨hn, _⟩⟩
  · rw [hp, List.mem_singleton] at h
    rwa [hs, h]
  · rw [hp, List.mem_cons, List.mem_singleton] at h
    rw [hs.mem_iff, List.mem_cons, List.mem_cons]
    exact h.imp_right Or.inl
  · exact absurd hw hn

/-- Of two different parts of a block one waits. -/
theorem mem_cutBlock_or {inside : σ → Bool} (waiting : List (List σ)) {block c d : List σ}
    (hc : c ∈ parts inside block) (hd : d ∈ parts inside block) :
    c = d ∨ c ∈ (cutBlock inside waiting block).2 ∨ d ∈ (cutBlock inside waiting block).2 := by
  rcases cutBlock_snd inside waiting block with ⟨hp, _⟩ | ⟨yes, no, hp, h⟩
  · rw [hp, List.mem_singleton] at hc hd
    exact Or.inl (hc.trans hd.symm)
  · rw [hp, List.mem_cons, List.mem_singleton] at hc hd
    have hwait : yes ∈ (cutBlock inside waiting block).2 ∨
        no ∈ (cutBlock inside waiting block).2 := by
      rcases h with ⟨_, h⟩ | ⟨_, h | h⟩
      · exact Or.inl (h.mem_iff.mpr List.mem_cons_self)
      · exact Or.inl (h ▸ List.mem_cons_self)
      · exact Or.inr (h ▸ List.mem_cons_self)
    rcases hc with rfl | rfl <;> rcases hd with rfl | rfl
    · exact Or.inl rfl
    · exact Or.inr hwait
    · exact Or.inr hwait.symm
    · exact Or.inl rfl

theorem mem_of_mem_cutBlock {inside : σ → Bool} {waiting : List (List σ)} {block w : List σ}
    (h : w ∈ (cutBlock inside waiting block).2) : w ∈ waiting ∨ w ∈ parts inside block := by
  rcases cutBlock_snd inside waiting block with ⟨_, hs⟩ | ⟨yes, no, hp, ⟨_, hs⟩ | ⟨_, hs | hs⟩⟩
  · exact Or.inl (hs ▸ h)
  · rw [hs.mem_iff, List.mem_cons, List.mem_cons] at h
    rw [hp, List.mem_cons, List.mem_singleton]
    rcases h with h | h | h
    · exact Or.inr (Or.inl h)
    · exact Or.inr (Or.inr h)
    · exact Or.inl (List.mem_of_mem_erase h)
  · rw [hs, List.mem_cons] at h
    rw [hp, List.mem_cons]
    exact h.symm.imp_right Or.inl
  · rw [hs, List.mem_cons] at h
    rw [hp, List.mem_cons, List.mem_singleton]
    exact h.symm.imp_right Or.inr

theorem cutBlock_count (inside : σ → Bool) (waiting : List (List σ)) (block : List σ) :
    (cutBlock inside waiting block).2.length + 1 =
      waiting.length + (parts inside block).length := by
  rcases cutBlock_snd inside waiting block with ⟨hp, hs⟩ | ⟨yes, no, hp, ⟨hw, hs⟩ | ⟨_, hs | hs⟩⟩
  · rw [hp, hs, List.length_singleton]
  · have := List.length_pos_of_mem hw
    rw [hp, hs.length_eq, List.length_cons, List.length_cons, List.length_erase_of_mem hw]
    simp only [List.length_cons, List.length_nil]
    omega
  · rw [hp, hs]
    rfl
  · rw [hp, hs]
    rfl

/-! ## Cutting all blocks -/

theorem cutAll_cons (inside : σ → Bool) (block : List σ) (blocks waiting : List (List σ)) :
    cutAll inside (block :: blocks) waiting =
      ⟨(cutBlock inside waiting block).1 ++
          (cutAll inside blocks (cutBlock inside waiting block).2).blocks,
        (cutAll inside blocks (cutBlock inside waiting block).2).waiting⟩ := rfl

theorem cutAll_blocks (inside : σ → Bool) : ∀ (blocks waiting : List (List σ)),
    (cutAll inside blocks waiting).blocks = blocks.flatMap (parts inside)
  | [], _ => rfl
  | block :: blocks, waiting => by
    rw [cutAll_cons, List.flatMap_cons, ← cutAll_blocks inside blocks, cutBlock_fst]

theorem cutAll_count (inside : σ → Bool) : ∀ (blocks waiting : List (List σ)),
    (cutAll inside blocks waiting).waiting.length + blocks.length =
      waiting.length + (cutAll inside blocks waiting).blocks.length
  | [], _ => rfl
  | block :: blocks, waiting => by
    have ih := cutAll_count inside blocks (cutBlock inside waiting block).2
    have hc := cutBlock_count inside waiting block
    rw [cutAll_cons, cutBlock_fst, List.length_cons, List.length_append]
    simp only
    omega

theorem together_cutAll_iff {inside : σ → Bool} {blocks waiting : List (List σ)} {p q : σ} :
    Together (cutAll inside blocks waiting).blocks p q ↔
      Together blocks p q ∧ inside p = inside q := by
  rw [cutAll_blocks]
  constructor
  · rintro ⟨c, hc, hp, hq⟩
    obtain ⟨b, hb, hcb⟩ := List.mem_flatMap.mp hc
    obtain ⟨hpq, he⟩ := together_parts_iff.mp ⟨c, hcb, hp, hq⟩
    exact ⟨⟨b, hb, hpq⟩, he⟩
  · rintro ⟨⟨b, hb, hpq⟩, he⟩
    obtain ⟨c, hc, hp, hq⟩ := together_parts_iff.mpr ⟨hpq, he⟩
    exact ⟨c, List.mem_flatMap.mpr ⟨b, hb, hc⟩, hp, hq⟩

theorem mem_of_mem_cutAll {inside : σ → Bool} {w : List σ} : ∀ {blocks waiting : List (List σ)},
    w ∈ (cutAll inside blocks waiting).waiting →
      w ∈ waiting ∨ ∃ b ∈ blocks, w ∈ parts inside b
  | [], _, h => Or.inl h
  | block :: blocks, waiting, h => by
    rw [cutAll_cons] at h
    rcases mem_of_mem_cutAll h with h | ⟨b, hb, hw⟩
    · rcases mem_of_mem_cutBlock h with h | h
      · exact Or.inl h
      · exact Or.inr ⟨block, List.mem_cons_self, h⟩
    · exact Or.inr ⟨b, List.mem_cons_of_mem _ hb, hw⟩

/-- A splitter that is not a block goes on waiting. -/
theorem mem_cutAll_of_not_mem {inside : σ → Bool} {w : List σ} :
    ∀ {blocks waiting : List (List σ)}, w ∈ waiting → w ∉ blocks →
      w ∈ (cutAll inside blocks waiting).waiting
  | [], _, hw, _ => hw
  | block :: blocks, waiting, hw, hn => by
    rw [List.mem_cons, not_or] at hn
    rw [cutAll_cons]
    exact mem_cutAll_of_not_mem (mem_cutBlock_of_ne hw hn.1) hn.2

/-- **What waits after all blocks have been cut**: every part of a block that was waiting, and
of any two parts of a block at least one. -/
theorem cutAll_waiting (inside : σ → Bool) : ∀ {blocks : List (List σ)} (waiting : List (List σ)),
    (∀ b ∈ blocks, b ≠ []) → blocks.Pairwise List.Disjoint → ∀ b ∈ blocks,
      (b ∈ waiting → ∀ c ∈ parts inside b, c ∈ (cutAll inside blocks waiting).waiting) ∧
      ∀ c ∈ parts inside b, ∀ d ∈ parts inside b, c = d ∨
        c ∈ (cutAll inside blocks waiting).waiting ∨ d ∈ (cutAll inside blocks waiting).waiting
  | [], _, _, _ => fun _ hb => absurd hb List.not_mem_nil
  | block :: blocks, waiting, hne, hdisj => by
    intro b hb
    obtain ⟨hhead, htail⟩ := List.pairwise_cons.mp hdisj
    have hblock : block ≠ [] := hne block List.mem_cons_self
    have hkeep : ∀ c ∈ parts inside block, c ∈ (cutBlock inside waiting block).2 →
        c ∈ (cutAll inside (block :: blocks) waiting).waiting := by
      intro c hc hw
      rw [cutAll_cons]
      exact mem_cutAll_of_not_mem hw (not_mem_of_mem_parts hblock hhead hc)
    rcases List.mem_cons.mp hb with rfl | hb
    · refine ⟨fun hw c hc => hkeep c hc (mem_cutBlock_of_mem_parts hw hc), fun c hc d hd => ?_⟩
      rcases mem_cutBlock_or waiting hc hd with h | h | h
      · exact Or.inl h
      · exact Or.inr (Or.inl (hkeep c hc h))
      · exact Or.inr (Or.inr (hkeep d hd h))
    · obtain ⟨h1, h2⟩ := cutAll_waiting inside (cutBlock inside waiting block).2
        (fun b hb => hne b (List.mem_cons_of_mem _ hb)) htail b hb
      refine ⟨fun hw => h1 (mem_cutBlock_of_ne hw fun he => ?_), h2⟩
      obtain ⟨q, hq⟩ := List.exists_mem_of_ne_nil b (hne b (List.mem_cons_of_mem _ hb))
      exact hhead b hb (he ▸ hq) hq

/-! ## What a cut preserves -/

/-- The blocks make up the states, each block in the order of the states and none empty. -/
structure Partitions (states : List σ) (blocks : List (List σ)) : Prop where
  flatten_perm : blocks.flatten.Perm states
  ne_nil : ∀ b ∈ blocks, b ≠ []
  sublist : ∀ b ∈ blocks, b.Sublist states

namespace Partitions

variable {states : List σ} {blocks : List (List σ)}

omit [DecidableEq σ]

theorem disjoint (h : Partitions states blocks) (hn : states.Nodup) :
    blocks.Pairwise List.Disjoint :=
  (List.nodup_flatten.mp (h.flatten_perm.nodup_iff.mpr hn)).2

theorem eq_of_mem (h : Partitions states blocks) (hn : states.Nodup) {b c : List σ} {q : σ}
    (hb : b ∈ blocks) (hc : c ∈ blocks) (hqb : q ∈ b) (hqc : q ∈ c) : b = c := by
  by_contra hne
  have : Std.Symm (List.Disjoint (α := σ)) := ⟨fun _ _ hd _ hx hy => hd hy hx⟩
  exact (h.disjoint hn).forall hb hc hne hqb hqc

theorem exists_block (h : Partitions states blocks) {q : σ} (hq : q ∈ states) :
    ∃ b ∈ blocks, q ∈ b := by
  have hmem : q ∈ blocks.flatten := h.flatten_perm.mem_iff.mpr hq
  exact List.mem_flatten.mp hmem

theorem mem_states (h : Partitions states blocks) {b : List σ} {q : σ} (hb : b ∈ blocks)
    (hq : q ∈ b) : q ∈ states := (h.sublist b hb).subset hq

/-- There are at most as many blocks as states. -/
theorem length_le (h : Partitions states blocks) : blocks.length ≤ states.length := by
  have hle : ∀ {bs : List (List σ)}, (∀ b ∈ bs, b ≠ []) → bs.length ≤ bs.flatten.length := by
    intro bs hbs
    induction bs with
    | nil => exact Nat.le_refl _
    | cons b bs ih =>
      have hb := List.length_pos_of_ne_nil (hbs b List.mem_cons_self)
      have ih' := ih fun c hc => hbs c (List.mem_cons_of_mem b hc)
      rw [List.length_cons, List.flatten_cons, List.length_append]
      omega
  exact h.flatten_perm.length_eq ▸ hle h.ne_nil

/-- The cut of a partition is a partition. -/
theorem flatMap_parts (h : Partitions states blocks) (inside : σ → Bool) :
    Partitions states (blocks.flatMap (parts inside)) := by
  refine ⟨?_, fun c hc => ?_, fun c hc => ?_⟩
  · have hperm : ∀ bs : List (List σ), (bs.flatMap (parts inside)).flatten.Perm bs.flatten := by
      intro bs
      induction bs with
      | nil => exact List.Perm.nil
      | cons b bs ih =>
        rw [List.flatMap_cons, List.flatten_append, List.flatten_cons]
        exact (parts_flatten_perm inside b).append ih
    exact (hperm blocks).trans h.flatten_perm
  · obtain ⟨b, hb, hcb⟩ := List.mem_flatMap.mp hc
    exact ne_nil_of_mem_parts (h.ne_nil b hb) hcb
  · obtain ⟨b, hb, hcb⟩ := List.mem_flatMap.mp hc
    exact (sublist_of_mem_parts hcb).trans (h.sublist b hb)

end Partitions

section Invariants

variable {states : List σ} {symbols : List ι} {next : σ → ι → σ} {accepting : σ → Bool}

/-- No state outside of `S` is indistinguishable from one in `S`. -/
def Saturated (states : List σ) (symbols : List ι) (next : σ → ι → σ) (accepting : σ → Bool)
    (S : List σ) : Prop :=
  ∀ p ∈ states, ∀ q ∈ states, Indistinguishable symbols next accepting p q → (p ∈ S ↔ q ∈ S)

/-- What blocks and splitters promise at any time. -/
structure Sound (states : List σ) (symbols : List ι) (next : σ → ι → σ) (accepting : σ → Bool)
    (progress : Progress σ) : Prop where
  partitions : Partitions states progress.blocks
  accepting_eq : ∀ p q, Together progress.blocks p q → accepting p = accepting q
  blocks_saturated : ∀ b ∈ progress.blocks, Saturated states symbols next accepting b
  waiting_saturated : ∀ s ∈ progress.waiting, Saturated states symbols next accepting s

omit [DecidableEq σ] in
/-- A part of a saturated block is saturated, if the cut does not separate indistinguishable
states. -/
theorem saturated_part {inside : σ → Bool} {block part : List σ}
    (hb : Saturated states symbols next accepting block)
    (hi : ∀ p ∈ states, ∀ q ∈ states, Indistinguishable symbols next accepting p q →
      inside p = inside q)
    (h : part ∈ parts inside block) : Saturated states symbols next accepting part := by
  intro p hp q hq hpq
  rcases parts_cases inside block with ⟨hc, _⟩ | ⟨hc, _⟩
  · rw [hc, List.mem_singleton] at h
    exact h ▸ hb p hp q hq hpq
  · rw [hc, List.mem_cons, List.mem_singleton] at h
    rcases h with rfl | rfl
    · rw [List.mem_filter, List.mem_filter, hb p hp q hq hpq, hi p hp q hq hpq]
    · rw [List.mem_filter, List.mem_filter, hb p hp q hq hpq, hi p hp q hq hpq]

theorem Sound.cutAll {blocks waiting : List (List σ)}
    (h : Sound states symbols next accepting ⟨blocks, waiting⟩) {inside : σ → Bool}
    (hi : ∀ p ∈ states, ∀ q ∈ states, Indistinguishable symbols next accepting p q →
      inside p = inside q) :
    Sound states symbols next accepting (cutAll inside blocks waiting) where
  partitions := by
    rw [cutAll_blocks]
    exact h.partitions.flatMap_parts inside
  accepting_eq p q hpq := h.accepting_eq p q (together_cutAll_iff.mp hpq).1
  blocks_saturated c hc := by
    rw [cutAll_blocks] at hc
    obtain ⟨b, hb, hcb⟩ := List.mem_flatMap.mp hc
    exact saturated_part (h.blocks_saturated b hb) hi hcb
  waiting_saturated s hs := by
    rcases mem_of_mem_cutAll hs with hs | ⟨b, hb, hsb⟩
    · exact h.waiting_saturated s hs
    · exact saturated_part (h.blocks_saturated b hb) hi hsb

/-- Where states of one block move into different blocks, one of these waits, or the pair is
excused. -/
def Covered (symbols : List ι) (next : σ → ι → σ) (excused : ι → σ → σ → Prop)
    (progress : Progress σ) : Prop :=
  ∀ p q, Together progress.blocks p q → ∀ a ∈ symbols, ∀ b ∈ progress.blocks,
    ∀ c ∈ progress.blocks, next p a ∈ b → next q a ∈ c →
      b = c ∨ b ∈ progress.waiting ∨ c ∈ progress.waiting ∨ excused a p q

theorem Covered.cutAll {excused : ι → σ → σ → Prop} {blocks waiting : List (List σ)}
    (h : Covered symbols next excused ⟨blocks, waiting⟩) (hp : Partitions states blocks)
    (hn : states.Nodup) (inside : σ → Bool) :
    Covered symbols next excused (cutAll inside blocks waiting) := by
  intro p q hpq a ha c hc d hd hpc hqd
  have hwait (b : List σ) (hb : b ∈ blocks) := cutAll_waiting inside waiting hp.ne_nil
    (hp.disjoint hn) b hb
  rw [cutAll_blocks] at hc hd
  obtain ⟨b, hb, hcb⟩ := List.mem_flatMap.mp hc
  obtain ⟨b', hb', hdb⟩ := List.mem_flatMap.mp hd
  rcases h p q (together_cutAll_iff.mp hpq).1 a ha b hb b' hb'
    ((sublist_of_mem_parts hcb).subset hpc) ((sublist_of_mem_parts hdb).subset hqd)
    with rfl | hw | hw | he
  · rcases (hwait b hb).2 c hcb d hdb with h | h | h
    · exact Or.inl h
    · exact Or.inr (Or.inl h)
    · exact Or.inr (Or.inr (Or.inl h))
  · exact Or.inr (Or.inl ((hwait b hb).1 hw c hcb))
  · exact Or.inr (Or.inr (Or.inl ((hwait b' hb').1 hw d hdb)))
  · exact Or.inr (Or.inr (Or.inr he))

/-! ## One round -/

/-- The pairs of states that a cut by the splitter on the symbol will separate. -/
def Separates (next : σ → ι → σ) (splitter : List σ) (a : ι) (p q : σ) : Prop :=
  ¬(next p a ∈ splitter ↔ next q a ∈ splitter)

/-- A splitter leaves the queue, and the pairs that it separates are excused for a round. -/
theorem covered_of_splitter {splitter : List σ} {blocks waiting : List (List σ)}
    (hp : Partitions states blocks) (hn : states.Nodup)
    (h : Covered symbols next (fun _ _ _ => False) ⟨blocks, splitter :: waiting⟩) :
    Covered symbols next (Separates next splitter) ⟨blocks, waiting⟩ := by
  intro p q hpq a ha b hb c hc hpb hqc
  by_cases hbc : b = c
  · exact Or.inl hbc
  have hdiff : ∀ {r s : σ} {d e : List σ}, d ∈ blocks → e ∈ blocks → d ≠ e → r ∈ d → s ∈ e →
      d = splitter → r ∈ splitter ∧ s ∉ splitter := by
    rintro r s d e hd he hde hr hse rfl
    exact ⟨hr, fun hs => hde (hp.eq_of_mem hn hd he hs hse)⟩
  rcases h p q hpq a ha b hb c hc hpb hqc with he | hw | hw | he
  · exact absurd he hbc
  · rcases List.mem_cons.mp hw with hs | hw
    · obtain ⟨h1, h2⟩ := hdiff hb hc hbc hpb hqc hs
      exact Or.inr (Or.inr (Or.inr fun hiff => h2 (hiff.mp h1)))
    · exact Or.inr (Or.inl hw)
  · rcases List.mem_cons.mp hw with hs | hw
    · obtain ⟨h1, h2⟩ := hdiff hc hb (Ne.symm hbc) hqc hpb hs
      exact Or.inr (Or.inr (Or.inr fun hiff => h2 (hiff.mpr h1)))
    · exact Or.inr (Or.inr (Or.inl hw))
  · exact he.elim

variable [Hashable σ]

/-- Whether the symbol leads from the state into the splitter. -/
def leadsInto (next : σ → ι → σ) (splitter : List σ) (a : ι) (q : σ) : Bool :=
  next q a ∈ Std.HashSet.ofList splitter

theorem leadsInto_eq_iff {splitter : List σ} {a : ι} {p q : σ} :
    leadsInto next splitter a p = leadsInto next splitter a q ↔
      ¬ Separates next splitter a p q := by
  simp only [leadsInto, Separates, decide_eq_decide, Std.HashSet.mem_ofList,
    List.contains_iff_mem, not_not]

/-- A saturated splitter separates no indistinguishable states. -/
theorem leadsInto_eq (hclosed : ∀ q ∈ states, ∀ a ∈ symbols, next q a ∈ states)
    {splitter : List σ} (hs : Saturated states symbols next accepting splitter) {a : ι}
    (ha : a ∈ symbols) {p q : σ} (hp : p ∈ states) (hq : q ∈ states)
    (hpq : Indistinguishable symbols next accepting p q) :
    leadsInto next splitter a p = leadsInto next splitter a q :=
  leadsInto_eq_iff.mpr fun hsep =>
    hsep (hs _ (hclosed p hp a ha) _ (hclosed q hq a ha) (hpq.next ha))

/-- One splitter cuts on one symbol after the other. What has been cut on stays cut. -/
theorem cutBy_spec (hn : states.Nodup) (hclosed : ∀ q ∈ states, ∀ a ∈ symbols, next q a ∈ states)
    {splitter : List σ} (hs : Saturated states symbols next accepting splitter) :
    ∀ {todo : List ι} {progress : Progress σ}, (∀ a ∈ todo, a ∈ symbols) →
      Sound states symbols next accepting progress →
      Covered symbols next (Separates next splitter) progress →
      Sound states symbols next accepting (cutBy todo next splitter progress) ∧
      Covered symbols next (Separates next splitter) (cutBy todo next splitter progress) ∧
      (∀ p q, Together (cutBy todo next splitter progress).blocks p q →
        Together progress.blocks p q ∧ ∀ a ∈ todo, ¬ Separates next splitter a p q) ∧
      (cutBy todo next splitter progress).waiting.length + progress.blocks.length =
        progress.waiting.length + (cutBy todo next splitter progress).blocks.length
  | [], _, _, hsound, hcov => ⟨hsound, hcov, fun _ _ h => ⟨h, fun _ ha => absurd ha
      List.not_mem_nil⟩, rfl⟩
  | a :: todo, progress, hsub, hsound, hcov => by
    let inside := leadsInto next splitter a
    have hsound' : Sound states symbols next accepting
        (cutAll inside progress.blocks progress.waiting) :=
      Sound.cutAll hsound fun p hp q hq =>
        leadsInto_eq hclosed hs (hsub a List.mem_cons_self) hp hq
    have hcov' : Covered symbols next (Separates next splitter)
        (cutAll inside progress.blocks progress.waiting) :=
      Covered.cutAll hcov hsound.partitions hn inside
    obtain ⟨h1, h2, h3, h4⟩ := cutBy_spec hn hclosed hs
      (fun b hb => hsub b (List.mem_cons_of_mem a hb)) hsound' hcov'
    refine ⟨h1, h2, fun p q hpq => ?_, ?_⟩
    · obtain ⟨ht, hrest⟩ := h3 p q hpq
      obtain ⟨ht, he⟩ := together_cutAll_iff.mp ht
      refine ⟨ht, fun b hb => ?_⟩
      rcases List.mem_cons.mp hb with rfl | hb
      · exact leadsInto_eq_iff.mp he
      · exact hrest b hb
    · have hc := cutAll_count inside progress.blocks progress.waiting
      have h4' : (cutBy (a :: todo) next splitter progress).waiting.length +
          (cutAll inside progress.blocks progress.waiting).blocks.length =
          (cutAll inside progress.blocks progress.waiting).waiting.length +
            (cutBy (a :: todo) next splitter progress).blocks.length := h4
      omega

/-! ## All rounds -/

/-- **The rounds use up all splitters**, as each takes one away and every cut, which adds one,
adds a block as well. -/
theorem rounds_spec (hn : states.Nodup) (hclosed : ∀ q ∈ states, ∀ a ∈ symbols, next q a ∈ states) :
    ∀ (fuel : Nat) (progress : Progress σ), Sound states symbols next accepting progress →
      Covered symbols next (fun _ _ _ => False) progress →
      progress.waiting.length + states.length ≤ fuel + progress.blocks.length →
      Sound states symbols next accepting (rounds symbols next fuel progress) ∧
      Covered symbols next (fun _ _ _ => False) (rounds symbols next fuel progress) ∧
      (rounds symbols next fuel progress).waiting = []
  | 0, progress, hsound, hcov, hfuel => by
    have hle := hsound.partitions.length_le
    exact ⟨hsound, hcov, List.length_eq_zero_iff.mp (show progress.waiting.length = 0 by omega)⟩
  | fuel + 1, ⟨blocks, []⟩, hsound, hcov, _ => ⟨hsound, hcov, rfl⟩
  | fuel + 1, ⟨blocks, splitter :: waiting⟩, hsound, hcov, hfuel => by
    have hs : Saturated states symbols next accepting splitter :=
      hsound.waiting_saturated splitter List.mem_cons_self
    have hsound' : Sound states symbols next accepting ⟨blocks, waiting⟩ :=
      ⟨hsound.partitions, hsound.accepting_eq, hsound.blocks_saturated,
        fun s hs => hsound.waiting_saturated s (List.mem_cons_of_mem _ hs)⟩
    obtain ⟨h1, h2, h3, h4⟩ := cutBy_spec hn hclosed hs (fun a ha => ha) hsound'
      (covered_of_splitter hsound.partitions hn hcov)
    -- after the last symbol no pair of a block is excused
    have h2' : Covered symbols next (fun _ _ _ => False)
        (cutBy symbols next splitter ⟨blocks, waiting⟩) := by
      intro p q hpq a ha b hb c hc hpb hqc
      rcases h2 p q hpq a ha b hb c hc hpb hqc with h | h | h | h
      · exact Or.inl h
      · exact Or.inr (Or.inl h)
      · exact Or.inr (Or.inr (Or.inl h))
      · exact absurd h ((h3 p q hpq).2 a ha)
    have hfuel' : (cutBy symbols next splitter ⟨blocks, waiting⟩).waiting.length +
        states.length ≤ fuel + (cutBy symbols next splitter ⟨blocks, waiting⟩).blocks.length := by
      simp only [List.length_cons] at hfuel h4
      omega
    exact rounds_spec hn hclosed fuel _ h1 h2' hfuel'

omit [DecidableEq σ] [Hashable σ] in
/-- Without splitters the partition is stable: states of one block move into one block. -/
theorem together_next {progress : Progress σ}
    (hsound : Sound states symbols next accepting progress)
    (hcov : Covered symbols next (fun _ _ _ => False) progress) (hw : progress.waiting = [])
    (hclosed : ∀ q ∈ states, ∀ a ∈ symbols, next q a ∈ states) {p q : σ}
    (h : Together progress.blocks p q) {a : ι} (ha : a ∈ symbols) :
    Together progress.blocks (next p a) (next q a) := by
  obtain ⟨b, hb, hp, hq⟩ := h
  obtain ⟨c, hc, hpc⟩ := hsound.partitions.exists_block
    (hclosed p (hsound.partitions.mem_states hb hp) a ha)
  obtain ⟨d, hd, hqd⟩ := hsound.partitions.exists_block
    (hclosed q (hsound.partitions.mem_states hb hq) a ha)
  rcases hcov p q ⟨b, hb, hp, hq⟩ a ha c hc d hd hpc hqd with rfl | h | h | h
  · exact ⟨c, hc, hpc, hqd⟩
  · rw [hw] at h
    exact absurd h List.not_mem_nil
  · rw [hw] at h
    exact absurd h List.not_mem_nil
  · exact h.elim

omit [DecidableEq σ] [Hashable σ] in
theorem indistinguishable_of_together {progress : Progress σ}
    (hsound : Sound states symbols next accepting progress)
    (hcov : Covered symbols next (fun _ _ _ => False) progress) (hw : progress.waiting = [])
    (hclosed : ∀ q ∈ states, ∀ a ∈ symbols, next q a ∈ states) {p q : σ}
    (h : Together progress.blocks p q) : Indistinguishable symbols next accepting p q := by
  intro w hsym
  induction w generalizing p q with
  | nil => exact hsound.accepting_eq p q h
  | cons a w ih =>
    exact ih (together_next hsound hcov hw hclosed h (hsym a List.mem_cons_self))
      fun b hb => hsym b (List.mem_cons_of_mem a hb)

/-! ## The partition that is found -/

/-- The accepting and the rejecting states, each a block unless there are none. -/
def firstBlocks (accepting : σ → Bool) (states : List σ) : List (List σ) :=
  [states.filter accepting, states.filter fun q => !accepting q].filter fun block =>
    !block.isEmpty

omit [DecidableEq σ] [Hashable σ] in
theorem mem_firstBlocks {b : List σ} : b ∈ firstBlocks accepting states ↔
    (b = states.filter accepting ∨ b = states.filter fun q => !accepting q) ∧ b ≠ [] := by
  rw [firstBlocks, List.mem_filter, List.mem_cons, List.mem_singleton, Bool.not_eq_true',
    List.isEmpty_eq_false_iff]

omit [DecidableEq σ] [Hashable σ] in
theorem firstBlocks_partitions (accepting : σ → Bool) (states : List σ) :
    Partitions states (firstBlocks accepting states) := by
  refine ⟨?_, fun b hb => (mem_firstBlocks.mp hb).2, fun b hb => ?_⟩
  · have hflat : (firstBlocks accepting states).flatten =
        states.filter accepting ++ states.filter fun q => !accepting q := by
      rw [firstBlocks]
      cases states.filter accepting <;> cases states.filter fun q => !accepting q <;> simp
    rw [hflat]
    exact List.filter_append_perm accepting states
  · rcases (mem_firstBlocks.mp hb).1 with rfl | rfl
    · exact List.filter_sublist
    · exact List.filter_sublist

omit [DecidableEq σ] [Hashable σ] in
theorem firstBlocks_sound :
    Sound states symbols next accepting
      ⟨firstBlocks accepting states, (firstBlocks accepting states).reverse⟩ := by
  have hsat : ∀ b ∈ firstBlocks accepting states, Saturated states symbols next accepting b := by
    intro b hb p hp q hq hpq
    have hacc : accepting p = accepting q := hpq [] (by simp)
    rcases (mem_firstBlocks.mp hb).1 with rfl | rfl
    · simp [List.mem_filter, hp, hq, hacc]
    · simp [List.mem_filter, hp, hq, hacc]
  refine ⟨firstBlocks_partitions accepting states, fun p q h => ?_, hsat,
    fun s hs => hsat s (List.mem_reverse.mp hs)⟩
  obtain ⟨b, hb, hp, hq⟩ := h
  rcases (mem_firstBlocks.mp hb).1 with rfl | rfl
  · rw [(List.mem_filter.mp hp).2, (List.mem_filter.mp hq).2]
  · have hp' := (List.mem_filter.mp hp).2
    have hq' := (List.mem_filter.mp hq).2
    rw [Bool.not_eq_true'] at hp' hq'
    rw [hp', hq']

/-- The loop before its first round: both blocks wait, the rejecting states on top. -/
def start (accepting : σ → Bool) (states : List σ) : Progress σ :=
  ⟨firstBlocks accepting states, (firstBlocks accepting states).reverse⟩

theorem refine_invariants (hn : states.Nodup)
    (hclosed : ∀ q ∈ states, ∀ a ∈ symbols, next q a ∈ states) (accepting : σ → Bool) :
    ∃ progress, rounds symbols next (states.length + 1) (start accepting states) = progress ∧
      refine symbols next accepting states = progress.blocks ∧
      Sound states symbols next accepting progress ∧
      Covered symbols next (fun _ _ _ => False) progress ∧ progress.waiting = [] := by
  refine ⟨_, rfl, rfl, rounds_spec hn hclosed (states.length + 1) _ firstBlocks_sound ?_ ?_⟩
  · exact fun p q _ a _ b hb c _ _ _ => Or.inr (Or.inl (List.mem_reverse.mpr hb))
  · show (firstBlocks accepting states).reverse.length + states.length ≤
      states.length + 1 + (firstBlocks accepting states).length
    rw [List.length_reverse]
    omega

/-- The blocks found are a partition of the states. -/
theorem refine_partition (hn : states.Nodup)
    (hclosed : ∀ q ∈ states, ∀ a ∈ symbols, next q a ∈ states) :
    Partitions states (refine symbols next accepting states) := by
  obtain ⟨progress, -, h, hsound, -⟩ := refine_invariants hn hclosed accepting
  exact h ▸ hsound.partitions

/-- **Two states are in one block iff no word tells them apart.** -/
theorem together_refine_iff (hn : states.Nodup)
    (hclosed : ∀ q ∈ states, ∀ a ∈ symbols, next q a ∈ states) {p q : σ} (hp : p ∈ states)
    (hq : q ∈ states) :
    Together (refine symbols next accepting states) p q ↔
      Indistinguishable symbols next accepting p q := by
  obtain ⟨progress, -, h, hsound, hcov, hw⟩ := refine_invariants hn hclosed accepting
  rw [h]
  refine ⟨indistinguishable_of_together hsound hcov hw hclosed, fun hpq => ?_⟩
  obtain ⟨b, hb, hpb⟩ := hsound.partitions.exists_block hp
  exact ⟨b, hb, hpb, (hsound.blocks_saturated b hb p hp q hq hpq).mp hpb⟩

/-! ## The coarsest stable partition -/

/-- Once no splitter waits, further rounds change nothing. -/
theorem rounds_of_waiting_eq_nil (fuel : Nat) {progress : Progress σ} (h : progress.waiting = []) :
    rounds symbols next fuel progress = progress := by
  cases fuel with
  | zero => rfl
  | succ fuel => rw [rounds, h]

theorem rounds_add : ∀ (m n : Nat) (progress : Progress σ),
    rounds symbols next (m + n) progress = rounds symbols next n (rounds symbols next m progress)
  | 0, n, progress => by rw [Nat.zero_add, rounds]
  | m + 1, n, ⟨blocks, []⟩ => by
    rw [rounds_of_waiting_eq_nil _ rfl, rounds_of_waiting_eq_nil _ rfl,
      rounds_of_waiting_eq_nil _ rfl]
  | m + 1, n, ⟨blocks, splitter :: waiting⟩ => by
    rw [Nat.add_right_comm]
    exact rounds_add m n _

/-- **The loop ends** after at most one round more than there are states, with the partition that
is found and no splitter left. -/
theorem rounds_eq_refine (hn : states.Nodup)
    (hclosed : ∀ q ∈ states, ∀ a ∈ symbols, next q a ∈ states) {fuel : Nat}
    (hfuel : states.length < fuel) : rounds symbols next fuel (start accepting states) =
      ⟨refine symbols next accepting states, []⟩ := by
  obtain ⟨progress, hrounds, h, -, -, hw⟩ := refine_invariants hn hclosed accepting
  obtain ⟨more, rfl⟩ := Nat.exists_eq_add_of_le (Nat.succ_le_of_lt hfuel)
  rw [rounds_add, hrounds, rounds_of_waiting_eq_nil more hw, h, ← hw]

/-- A partition of the states that separates accepting from rejecting states and is stable under
every symbol, and is the coarsest one: whatever relates no accepting state to a rejecting one and
is kept by every symbol relates states of one block only. -/
structure CoarsestStable (symbols : List ι) (next : σ → ι → σ) (accepting : σ → Bool)
    (states : List σ) (blocks : List (List σ)) : Prop where
  partitions : Partitions states blocks
  accepting_eq : ∀ p q, Together blocks p q → accepting p = accepting q
  stable : ∀ p q, Together blocks p q → ∀ a ∈ symbols, Together blocks (next p a) (next q a)
  coarsest : ∀ R : σ → σ → Prop, (∀ p q, R p q → accepting p = accepting q) →
    (∀ p q, R p q → ∀ a ∈ symbols, R (next p a) (next q a)) →
      ∀ p ∈ states, ∀ q ∈ states, R p q → Together blocks p q

omit [DecidableEq σ] [Hashable σ] in
/-- Related states are not told apart by any word. -/
theorem indistinguishable_of_related {R : σ → σ → Prop}
    (haccepting : ∀ p q, R p q → accepting p = accepting q)
    (hstable : ∀ p q, R p q → ∀ a ∈ symbols, R (next p a) (next q a)) {p q : σ} (h : R p q) :
    Indistinguishable symbols next accepting p q := by
  intro w hw
  induction w generalizing p q with
  | nil => exact haccepting p q h
  | cons a w ih =>
    obtain ⟨ha, hw⟩ := List.forall_mem_cons.mp hw
    exact ih (hstable p q h a ha) hw

/-- **The partition that is found is the coarsest stable one.** -/
theorem refine_coarsest (hn : states.Nodup)
    (hclosed : ∀ q ∈ states, ∀ a ∈ symbols, next q a ∈ states) :
    CoarsestStable symbols next accepting states (refine symbols next accepting states) := by
  obtain ⟨progress, -, h, hsound, hcov, hw⟩ := refine_invariants hn hclosed accepting
  constructor
  case partitions => exact refine_partition hn hclosed
  case accepting_eq => exact h ▸ hsound.accepting_eq
  case stable =>
    intro p q hpq a ha
    rw [h] at hpq ⊢
    exact together_next hsound hcov hw hclosed hpq ha
  case coarsest =>
    intro R haccepting hstable p hp q hq hpq
    exact (together_refine_iff hn hclosed hp hq).mpr
      (indistinguishable_of_related haccepting hstable hpq)

end Invariants

end RegularLanguages.Refinement
