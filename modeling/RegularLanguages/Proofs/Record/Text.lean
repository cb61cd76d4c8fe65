import RegularLanguages.Proofs.Json.Layout
import RegularLanguages.Proofs.Record.Keys
import RegularLanguages.Record.Text

/-!
# Reading a record undoes writing it

Every field is written, once, and is read back as a list of strings or as an object in an object.
The reader puts the entries of an object under their keys one by one, so a record whose keys are in
increasing order is read as it was.

Results:
* `takes_keyed`, `takes_transitions`: objects with increasing keys.
* `takes_record`: the fields.
* **`ofText_toText`**: records with increasing keys.
-/

namespace RegularLanguages.Record

open Json (Fault Takes Follows)

variable {α : Type} {read : List Char → Except Fault (α × List Char)} {x : α} {text : List Char}

/-- An object with increasing keys is read if its values are. -/
theorem takes_keyed (write : α → List Char) {entries : List (String × α)} {depth : Nat}
    (hkeys : IncreasingKeys entries) (h : ∀ x ∈ entries, Takes read (write x.2) x.2) :
    Takes (readKeyed read) (Json.object depth (entries.map fun x => (x.1, write x.2))) entries := by
  have hcollect : entries.foldl (fun entries x => insertKey x.1 x.2 entries) [] = entries :=
    collect_eq_self hkeys
  have hfollows : Follows (fun entries key cs => do
      let value ← read (← Json.skipColon cs)
      return (insertKey key value.1 entries, value.2)) [] (entries.map fun x => (x.1, write x.2))
        (entries.foldl (fun entries x => insertKey x.1 x.2 entries) []) := by
    refine Json.follows_foldl fun old x hx rest => ?_
    show (read (' ' :: (write x.2 ++ rest)) >>= _) = _
    rw [(h x hx).reads_value]
    rfl
  rw [hcollect] at hfollows
  exact Json.takes_object hfollows

/-- The text of the targets by key. -/
def keysText (entries : List (String × List String)) : List Char :=
  Json.object 2 (entries.map fun entry => (entry.1, Json.strings 3 entry.2))

/-- The text of the transitions. -/
def transitionsText (rows : List (String × List (String × List String))) : List Char :=
  Json.object 1 (rows.map fun row => (row.1, keysText row.2))

theorem takes_transitions {rows : List (String × List (String × List String))}
    (hrows : IncreasingKeys rows) (hkeys : ∀ row ∈ rows, IncreasingKeys row.2) :
    Takes readTransitions (transitionsText rows) rows := by
  refine takes_keyed keysText hrows fun row hrow => ?_
  refine takes_keyed (Json.strings 3) (hkeys row hrow) fun entry _ => ?_
  exact Json.takes_strings 3 entry.2

/-! ## The fields -/

/-- A field that has not been read yet is read. -/
theorem readOnce_none (h : Takes read text x) (rest : List Char) :
    readOnce none read (':' :: ' ' :: (text ++ rest)) = .ok (some x, rest) := by
  show (read (' ' :: (text ++ rest)) >>= _) = _
  rw [h.reads_value]
  rfl

theorem takes_record {R : Record} (hrows : IncreasingKeys R.transitions)
    (hkeys : ∀ row ∈ R.transitions, IncreasingKeys row.2) :
    Takes (Json.readObject readField .blank) R.toChars
      ⟨some R.states, some R.alphabet, some R.transitions, some R.initial, some R.finals⟩ := by
  have hstrings (texts : List String) := readOnce_none (Json.takes_strings 1 texts)
  have htransitions := readOnce_none (takes_transitions hrows hkeys)
  refine Json.takes_object <|
    .cons (t := ⟨some R.states, none, none, none, none⟩) (fun rest => ?states) <|
    .cons (t := ⟨some R.states, some R.alphabet, none, none, none⟩) (fun rest => ?alphabet) <|
    .cons (t := ⟨some R.states, some R.alphabet, some R.transitions, none, none⟩)
      (fun rest => ?transitions) <|
    .cons (t := ⟨some R.states, some R.alphabet, some R.transitions, some R.initial, none⟩)
      (fun rest => ?initial) <|
    .cons (fun rest => ?finals) (.nil _)
  case states => exact congrArg (Except.map _) (hstrings R.states rest)
  case alphabet => exact congrArg (Except.map _) (hstrings R.alphabet rest)
  case transitions => exact congrArg (Except.map _) (htransitions rest)
  case initial => exact congrArg (Except.map _) (hstrings R.initial rest)
  case finals => exact congrArg (Except.map _) (hstrings R.finals rest)

/-- **A record whose keys are in order is read as it was written.** -/
theorem ofText_toText {R : Record} (hrows : IncreasingKeys R.transitions)
    (hkeys : ∀ row ∈ R.transitions, IncreasingKeys row.2) : ofText R.toText = .ok R := by
  have hread := (takes_record hrows hkeys).reads_append []
  rw [List.append_nil] at hread
  obtain ⟨cs, hcs⟩ : ∃ cs, R.toChars = '\x7b' :: cs := ⟨_, rfl⟩
  have hdraft : readDraft R.toChars = Json.readObject readField .blank R.toChars := by
    rw [hcs]
    rfl
  rw [ofText, toText, String.toList_ofList, ofChars, hdraft, hread]
  rfl

end RegularLanguages.Record
