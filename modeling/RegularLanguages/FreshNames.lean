import Std.Data.HashSet
import RegularLanguages.State

/-!
# Names not yet in use

A supply of state names remembers which names are in use and hands out others. `fresh` numbers
the names that share a stem, with one counter for all stems; `claim` returns the requested name
itself unless it is in use, and otherwise appends the least number that makes it new. `answerAll`
serves calls of both kinds in any order.

Both calls look for the first unused name in a sequence of pairwise different candidates.
Of the first `used.size + 1` of these at least one is unused, which bounds the search.
-/

namespace RegularLanguages

/-- A supply of state names: the names in use and the next number to try. -/
structure FreshNames where
  used : Std.HashSet State
  counter : Nat

namespace FreshNames

/-- The supply in which no name is in use. -/
def empty : FreshNames := ⟨∅, 0⟩

/-- The supply that avoids the given names. -/
def avoiding (taken : List State) : FreshNames := ⟨Std.HashSet.ofList taken, 0⟩

/-- The least number from `i` on, among `fuel` many, whose candidate is unused. -/
def firstUnused (used : Std.HashSet State) (candidate : Nat → State) : Nat → Nat → Nat
  | 0, i => i
  | fuel + 1, i => if candidate i ∈ used then firstUnused used candidate fuel (i + 1) else i

/-- Hands out the next unused name of the form stem and number. The counter moves past every
number that was tried. -/
def fresh (names : FreshNames) (stem : String) : State × FreshNames :=
  let i := firstUnused names.used (State.numbered stem) (names.used.size + 1) names.counter
  (State.numbered stem i, ⟨names.used.insert (State.numbered stem i), i + 1⟩)

/-- The variants of a name that is in use: `q'1, q'2, …`. -/
def variant (preferred : State) (i : Nat) : State := ⟨preferred.name ++ "'" ++ toString i⟩

/-- Hands out the preferred name, or its first unused variant if it is in use. -/
def claim (names : FreshNames) (preferred : State) : State × FreshNames :=
  let q :=
    if preferred ∈ names.used then
      variant preferred (firstUnused names.used (variant preferred) (names.used.size + 1) 1)
    else preferred
  (q, { names with used := names.used.insert q })

/-- Claims each of the preferred names in turn. -/
def claimAll (names : FreshNames) : List State → List State
  | [] => []
  | q :: qs =>
    let (p, names) := names.claim q
    p :: names.claimAll qs

/-- A call to a supply. -/
inductive Request
  | fresh (stem : String)
  | claim (preferred : State)
deriving DecidableEq

/-- Hands out the name that is asked for. -/
def answer (names : FreshNames) : Request → State × FreshNames
  | .fresh stem => names.fresh stem
  | .claim q => names.claim q

/-- Answers each of the requests in turn. -/
def answerAll (names : FreshNames) : List Request → List State
  | [] => []
  | r :: rs =>
    let (q, names) := names.answer r
    q :: names.answerAll rs

theorem claimAll_eq_answerAll (names : FreshNames) (qs : List State) :
    names.claimAll qs = names.answerAll (qs.map .claim) := by
  induction qs generalizing names with
  | nil => rfl
  | cons q qs ih => exact congrArg ((names.claim q).1 :: ·) (ih _)

@[simp] theorem length_answerAll (names : FreshNames) (rs : List Request) :
    (names.answerAll rs).length = rs.length := by
  induction rs generalizing names with
  | nil => rfl
  | cons r rs ih => simp [answerAll, ih]

@[simp] theorem length_claimAll (names : FreshNames) (qs : List State) :
    (names.claimAll qs).length = qs.length := by
  rw [claimAll_eq_answerAll, length_answerAll, List.length_map]

end FreshNames

end RegularLanguages
