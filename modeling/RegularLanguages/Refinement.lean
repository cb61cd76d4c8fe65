import Std.Data.HashSet

/-!
# Partition refinement

The coarsest partition of the states of a complete deterministic table that separates accepting
from rejecting states and is stable: for every block and every symbol, the states that move into
the block on the symbol are made of whole blocks.

Blocks wait as splitters, the last one to be used first. A splitter cuts every block into the part
that moves into it and the part that does not; a block that is cut while waiting is replaced by
both parts, otherwise the smaller part alone starts to wait, since cutting by the block and by one
part has the same effect as cutting by the other part. Every cut adds one block and one splitter,
and every round uses up one splitter, so there are at most as many rounds as states, and one more.
-/

namespace RegularLanguages.Refinement

variable {σ ι : Type} [DecidableEq σ] [Hashable σ]

/-- The blocks found so far and the stack of those that wait as splitters, the top one first. -/
structure Progress (σ : Type) where
  blocks : List (List σ)
  waiting : List (List σ)

/-- Takes a splitter out of the stack. The top one takes its place. -/
def swapRemove (block : List σ) : List (List σ) → List (List σ)
  | [] => []
  | top :: waiting => if top = block then waiting else waiting.replace block top

/-- Cuts one block into the states that satisfy `inside` and the others, and returns the blocks
that it becomes and the waiting splitters. A block on one side stays whole. -/
def cutBlock (inside : σ → Bool) (waiting : List (List σ)) (block : List σ) :
    List (List σ) × List (List σ) :=
  let yes := block.filter inside
  let no := block.filter fun q => !inside q
  if yes.isEmpty || no.isEmpty then ([block], waiting)
  else if block ∈ waiting then ([yes, no], no :: yes :: swapRemove block waiting)
  else if yes.length ≤ no.length then ([yes, no], yes :: waiting)
  else ([yes, no], no :: waiting)

/-- Cuts every block. -/
def cutAll (inside : σ → Bool) : List (List σ) → List (List σ) → Progress σ
  | [], waiting => ⟨[], waiting⟩
  | block :: blocks, waiting =>
    let (parts, waiting) := cutBlock inside waiting block
    let rest := cutAll inside blocks waiting
    ⟨parts ++ rest.blocks, rest.waiting⟩

/-- Cuts every block by one splitter, symbol after symbol. -/
def cutBy (symbols : List ι) (next : σ → ι → σ) (splitter : List σ) (progress : Progress σ) :
    Progress σ :=
  let members := Std.HashSet.ofList splitter
  symbols.foldl (fun progress a =>
    cutAll (fun q => next q a ∈ members) progress.blocks progress.waiting) progress

/-- Uses up the waiting splitters. -/
def rounds (symbols : List ι) (next : σ → ι → σ) : Nat → Progress σ → Progress σ
  | 0, progress => progress
  | fuel + 1, progress =>
    match progress.waiting with
    | [] => progress
    | splitter :: waiting =>
      rounds symbols next fuel (cutBy symbols next splitter { progress with waiting })

/-- The coarsest stable partition that separates the accepting states from the others. The
members of a block keep their order in `states`. -/
def refine (symbols : List ι) (next : σ → ι → σ) (accepting : σ → Bool) (states : List σ) :
    List (List σ) :=
  let initial := [states.filter accepting, states.filter fun q => !accepting q].filter
    fun block => !block.isEmpty
  (rounds symbols next (states.length + 1) ⟨initial, initial.reverse⟩).blocks

end RegularLanguages.Refinement
