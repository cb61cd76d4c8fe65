import RegularLanguages.Json.Layout
import RegularLanguages.Json.Reader
import RegularLanguages.Record.Basic

/-!
# The text of a record

A record is written as a JSON object with the fields `states`, `alphabet`, `transitions`,
`initial` and `final`. When it is read, any field may be missing and is then empty, further
fields are skipped, no field may be repeated, and of a repeated key within `transitions` the last
counts. The fields may also be given as a list in this order.
-/

namespace RegularLanguages

namespace Record

/-- The text of a record. -/
def toChars (R : Record) : List Char :=
  Json.object 0
    [("states", Json.strings 1 R.states),
      ("alphabet", Json.strings 1 R.alphabet),
      ("transitions", Json.object 1 (R.transitions.map fun (source, entries) =>
        (source, Json.object 2 (entries.map fun (symbol, targets) =>
          (symbol, Json.strings 3 targets))))),
      ("initial", Json.strings 1 R.initial),
      ("final", Json.strings 1 R.finals)]

/-- The text of a record. -/
def toText (R : Record) : String := String.ofList R.toChars

/-- The fields of a record that have been read. -/
structure Draft where
  states : Option (List String)
  alphabet : Option (List String)
  transitions : Option (List (String × List (String × List String)))
  initial : Option (List String)
  finals : Option (List String)

namespace Draft

/-- No field has been read. -/
def blank : Draft := ⟨none, none, none, none, none⟩

/-- The record with the fields that were not read left empty. -/
def complete (D : Draft) : Record where
  states := D.states.getD []
  alphabet := D.alphabet.getD []
  transitions := D.transitions.getD []
  initial := D.initial.getD []
  finals := D.finals.getD []

end Draft

open Json (Fault)

/-- Reads a list of strings. -/
def readStrings (cs : List Char) : Except Fault (List String × List Char) :=
  Json.readList Json.readString cs

/-- Reads an object whose values are read by `read`, ordered by its keys. -/
def readKeyed {α : Type} (read : List Char → Except Fault (α × List Char)) (cs : List Char) :
    Except Fault (List (String × α) × List Char) :=
  Json.readObject (fun entries key cs => do
    let (value, rest) ← read (← Json.skipColon cs)
    return (insertKey key value entries, rest)) [] cs

/-- Reads the transitions. -/
def readTransitions (cs : List Char) :
    Except Fault (List (String × List (String × List String)) × List Char) :=
  readKeyed (readKeyed readStrings) cs

/-- Reads the value of a field that has not been read yet. -/
def readOnce {α : Type} (old : Option α) (read : List Char → Except Fault (α × List Char))
    (cs : List Char) : Except Fault (Option α × List Char) :=
  if old.isSome then .error .misshapen
  else do
    let (value, rest) ← read (← Json.skipColon cs)
    return (some value, rest)

/-- Reads the value of the field with the given key. -/
def readField (D : Draft) (key : String) (cs : List Char) : Except Fault (Draft × List Char) :=
  match key with
  | "states" => (readOnce D.states readStrings cs).map fun (v, r) => ({ D with states := v }, r)
  | "alphabet" =>
    (readOnce D.alphabet readStrings cs).map fun (v, r) => ({ D with alphabet := v }, r)
  | "transitions" =>
    (readOnce D.transitions readTransitions cs).map fun (v, r) => ({ D with transitions := v }, r)
  | "initial" => (readOnce D.initial readStrings cs).map fun (v, r) => ({ D with initial := v }, r)
  | "final" => (readOnce D.finals readStrings cs).map fun (v, r) => ({ D with finals := v }, r)
  | _ => do
    let rest ← Json.skipValue (← Json.skipColon cs)
    return (D, rest)

/-- Reads a field that is given by its place in a list, if the list has it. -/
def readPlace {α : Type} (first : Bool) (read : List Char → Except Fault (α × List Char))
    (cs : List Char) : Except Fault (Option α × List Char) := do
  match ← Json.nextElement first cs with
  | none => return (none, cs)
  | some rest =>
    let (value, rest) ← read rest
    return (some value, rest)

/-- Reads the fields as a list, behind its opening bracket. -/
def readPlaces (cs : List Char) : Except Fault (Draft × List Char) := do
  let (states, rest) ← readPlace true readStrings cs
  let (alphabet, rest) ← readPlace states.isNone readStrings rest
  let (transitions, rest) ← readPlace states.isNone readTransitions rest
  let (initial, rest) ← readPlace states.isNone readStrings rest
  let (finals, rest) ← readPlace states.isNone readStrings rest
  return (⟨states, alphabet, transitions, initial, finals⟩, ← Json.closeList rest)

/-- Reads a record in front of further text. -/
def readDraft (cs : List Char) : Except Fault (Draft × List Char) :=
  match Json.skipSpace cs with
  | '[' :: rest => readPlaces rest
  | rest => Json.readObject readField .blank rest

/-- Reads a record from its characters, which nothing else may follow. -/
def ofChars (cs : List Char) : Except Fault Record := do
  let (D, rest) ← readDraft cs
  if (Json.skipSpace rest).isEmpty then
    return D.complete
  throw .malformed

/-- Reads a record. -/
def ofText (text : String) : Except Fault Record := ofChars text.toList

end Record

/-- Why a text does not give an automaton. -/
inductive RecordError
  /-- The text is no record. -/
  | notRecord (fault : Json.Fault)
  /-- The record describes no automaton. -/
  | notAutomaton (error : AutomatonError)
deriving DecidableEq

namespace Automaton

/-- The text of the record that describes the automaton. -/
def toJson (A : Automaton) : String := (Record.ofAutomaton A).toText

/-- Reads an automaton from the text of a record. -/
def ofJson (text : String) : Except RecordError Automaton :=
  match Record.ofText text with
  | .error fault => .error (.notRecord fault)
  | .ok R =>
    match R.toAutomaton with
    | .error error => .error (.notAutomaton error)
    | .ok A => .ok A

end Automaton

end RegularLanguages
