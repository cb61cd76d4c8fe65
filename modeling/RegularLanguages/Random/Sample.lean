import RegularLanguages.Automaton.Basic
import RegularLanguages.Random.Generator
import RegularLanguages.Word

/-!
# Random automata and words

The same seed and the same sizes always give the same result. The states of a random automaton
are `q0, q1, …` and the first one is initial, its symbols are the first lowercase letters.
-/

namespace RegularLanguages.Random

/-- The first `n` lowercase letters, at most all of them. -/
def letters (n : Nat) : OrderedSet Char :=
  .ofList ((List.range (min n 26)).map fun i => Char.ofNat ('a'.toNat + i))

/-- Draws for each entry of a list, and collects what the draws give. -/
def forEach {α β : Type} (draw : α → Generator → β × Generator) :
    List α → Generator → List β × Generator
  | [], g => ([], g)
  | x :: xs, g =>
    let (y, g) := draw x g
    let (ys, g) := forEach draw xs g
    (y :: ys, g)

/-- Draws whether a state is final. -/
def drawFinal (q : State) (g : Generator) : List State × Generator :=
  let (isFinal, g) := g.bool
  (if isFinal then [q] else [], g)

/-- Draws a nondeterministic automaton. Every state is final with probability one half, and every
transition is present with probability `density`. -/
def nondeterministic (symbols size : Nat) (density : Float) (g : Generator) :
    Automaton × Generator :=
  let alphabet := letters symbols
  let states := (List.range size).map (State.numbered "q")
  let (finals, g) := forEach drawFinal states g
  let possible : List Edge := states.flatMap fun p => alphabet.toList.flatMap fun c =>
    states.map fun q => ⟨p, .symbol c, q⟩
  let (edges, g) := forEach (fun e g =>
    let (x, g) := g.unit
    (if x < density then [e] else [], g)) possible g
  (⟨.ofList states, alphabet, .ofList edges.flatten, states.head?, .ofList finals.flatten⟩, g)

/-- Draws a complete deterministic automaton with at least one state. Every state is final with
probability one half, and the target of every transition is any state. -/
def deterministic (symbols size : Nat) (g : Generator) : Automaton × Generator :=
  let alphabet := letters symbols
  let size := max size 1
  let states := (List.range size).map (State.numbered "q")
  let (parts, g) := forEach (fun q g =>
    let (finals, g) := drawFinal q g
    let (edges, g) := forEach (fun c g =>
      let (i, g) := g.between 0 (size - 1)
      ((⟨q, .symbol c, State.numbered "q" i⟩ : Edge), g)) alphabet.toList g
    ((finals, edges), g)) states g
  (⟨.ofList states, alphabet, .ofList (parts.flatMap (·.2)), states.head?,
    .ofList (parts.flatMap (·.1))⟩, g)

/-- Draws a word whose length is between two bounds. If there is no symbol or no length between
the bounds the word is empty, and nothing is drawn. -/
def word (alphabet : OrderedSet Char) (minLength maxLength : Nat) (g : Generator) :
    Word × Generator :=
  if alphabet.isEmpty ∨ minLength > maxLength then ([], g)
  else
    let (length, g) := g.between minLength maxLength
    let (word, g) := forEach (fun _ g =>
      let (i, g) := g.between 0 (alphabet.size - 1)
      (alphabet.toList[i]?.toList, g)) (List.range length) g
    (word.flatten, g)

end RegularLanguages.Random
