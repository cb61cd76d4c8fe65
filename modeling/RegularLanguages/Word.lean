import RegularLanguages.OrderedSet

/-!
# Words

Words over a set of symbols in length-lexicographic order: shorter words first, words of one
length symbol by symbol. `following` is the successor in this order, counting like an odometer
whose digits are the symbols; `enumerate` starts at the empty word and follows it. `upTo` lists
all words up to a length, and `findUpTo?` goes through them without listing them.
-/

namespace RegularLanguages

/-- A word is the list of its symbols. -/
abbrev Word := List Char

/-- A language is given by the words that belong to it. -/
abbrev Language := Word → Prop

namespace Word

/-- The symbol behind `c` in a list of symbols. -/
def symbolAfter (c : Char) : List Char → Option Char
  | [] => none
  | x :: xs => if x = c then xs.head? else symbolAfter c xs

/-- The next word of the same length; the last word of a length has none. -/
def increment (symbols : List Char) : Word → Option Word
  | [] => none
  | c :: w =>
    match increment symbols w with
    | some w' => some (c :: w')
    | none =>
      match symbolAfter c symbols, symbols.head? with
      | some d, some first => some (d :: w.map fun _ => first)
      | _, _ => none

/-- The next word in length-lexicographic order. Without symbols the empty word is the last. -/
def following (symbols : OrderedSet Char) (w : Word) : Option Word :=
  match increment symbols.toList w with
  | some w' => some w'
  | none => symbols.toList.head?.map fun first => List.replicate (w.length + 1) first

/-- The word `w` and those behind it, at most `count` in all. -/
def enumerateFrom (symbols : OrderedSet Char) : (count : Nat) → Option Word → List Word
  | 0, _ => []
  | _ + 1, none => []
  | count + 1, some w => w :: enumerateFrom symbols count (following symbols w)

theorem enumerateFrom_none (symbols : OrderedSet Char) (count : Nat) :
    enumerateFrom symbols count none = [] := by
  cases count <;> rfl

/-- The word `steps` places behind `w`, unless the words end in front of it. -/
def advance (symbols : OrderedSet Char) : (steps : Nat) → Word → Option Word
  | 0, w => some w
  | steps + 1, w =>
    match following symbols w with
    | some w' => advance symbols steps w'
    | none => none

/-- The words in length-lexicographic order without the first `skip`, at most `count` in all. -/
def enumerate (symbols : OrderedSet Char) (skip count : Nat) : List Word :=
  enumerateFrom symbols count (advance symbols skip [])

theorem enumerateFrom_advance (symbols : OrderedSet Char) (skip count : Nat) (w : Word) :
    enumerateFrom symbols count (advance symbols skip w) =
      (enumerateFrom symbols (skip + count) (some w)).drop skip := by
  induction skip generalizing w with
  | zero => simp [advance]
  | succ skip ih =>
    rw [Nat.add_right_comm, enumerateFrom, List.drop_succ_cons, advance]
    cases following symbols w with
    | none => simp [enumerateFrom_none]
    | some w' => exact ih w'

/-- Skipping words leaves out the first ones. -/
theorem enumerate_eq_drop (symbols : OrderedSet Char) (skip count : Nat) :
    enumerate symbols skip count = (enumerate symbols 0 (skip + count)).drop skip :=
  enumerateFrom_advance symbols skip count []

/-- The words of one length in lexicographic order. -/
def ofLength (symbols : OrderedSet Char) : Nat → List Word
  | 0 => [[]]
  | n + 1 => symbols.toList.flatMap fun c => (ofLength symbols n).map (c :: ·)

/-- The greatest length of the words of at most the given length. Without symbols there is only
the empty word. -/
def greatestLength (symbols : OrderedSet Char) (maxLength : Nat) : Nat :=
  if symbols.isEmpty then 0 else maxLength

/-- The words of at most the given length in length-lexicographic order. -/
def upTo (symbols : OrderedSet Char) (maxLength : Nat) : List Word :=
  (List.range (greatestLength symbols maxLength + 1)).flatMap (ofLength symbols)

/-- The first word of one length, in lexicographic order, that has a property. -/
def findOfLength? (symbols : OrderedSet Char) : (length : Nat) → (Word → Bool) → Option Word
  | 0, p => if p [] then some [] else none
  | n + 1, p => symbols.toList.findSome? fun c =>
    (findOfLength? symbols n fun w => p (c :: w)).map (c :: ·)

theorem findOfLength?_eq_find? (symbols : OrderedSet Char) (n : Nat) (p : Word → Bool) :
    findOfLength? symbols n p = (ofLength symbols n).find? p := by
  induction n generalizing p with
  | zero => cases h : p [] <;> simp [findOfLength?, ofLength, h]
  | succ n ih =>
    simp only [findOfLength?, ofLength, List.find?_flatMap, List.find?_map, ih]
    rfl

/-- The first word with a property among those of `length` symbols and up to `more` more. -/
def findFrom? (symbols : OrderedSet Char) (p : Word → Bool) :
    (more length : Nat) → Option Word
  | 0, length => findOfLength? symbols length p
  | more + 1, length =>
    match findOfLength? symbols length p with
    | some w => some w
    | none => findFrom? symbols p more (length + 1)

/-- The first word of at most the given length, in length-lexicographic order, that has a
property. -/
def findUpTo? (symbols : OrderedSet Char) (maxLength : Nat) (p : Word → Bool) : Option Word :=
  findFrom? symbols p (greatestLength symbols maxLength) 0

theorem findFrom?_eq_find? (symbols : OrderedSet Char) (p : Word → Bool) (more length : Nat) :
    findFrom? symbols p more length =
      ((List.range' length (more + 1)).flatMap (ofLength symbols)).find? p := by
  induction more generalizing length with
  | zero => simp [findFrom?, findOfLength?_eq_find?]
  | succ more ih =>
    rw [findFrom?, List.range'_succ, List.flatMap_cons, List.find?_append, ← ih,
      findOfLength?_eq_find?]
    cases (ofLength symbols length).find? p <;> rfl

/-- Searching the words finds what searching their list finds. -/
theorem findUpTo?_eq_find? (symbols : OrderedSet Char) (maxLength : Nat) (p : Word → Bool) :
    findUpTo? symbols maxLength p = (upTo symbols maxLength).find? p := by
  rw [findUpTo?, findFrom?_eq_find?, upTo, List.range_eq_range']

/-- A word as shown to a reader: in quotes, and the empty word as `ε`. -/
def toText (w : Word) : String :=
  if w.isEmpty then "ε" else "\"" ++ String.ofList w ++ "\""

end Word

end RegularLanguages
