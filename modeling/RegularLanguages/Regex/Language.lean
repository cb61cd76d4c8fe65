import RegularLanguages.Regex.Basic
import RegularLanguages.Word

/-!
# The language of a regular expression

The meaning of an expression, one rule per way to form a word of it, and the equations that the
operators obey (`matches_union`, `matches_concat`, …).
-/

namespace RegularLanguages.Regex

/-- The word belongs to the language of the expression. -/
inductive Matches : Regex → Word → Prop
  | epsilon : Matches epsilon []
  | symbol (c : Char) : Matches (symbol c) [c]
  | unionLeft {l r : Regex} {w : Word} : Matches l w → Matches (union l r) w
  | unionRight {l r : Regex} {w : Word} : Matches r w → Matches (union l r) w
  | concat {l r : Regex} {u v : Word} : Matches l u → Matches r v → Matches (concat l r) (u ++ v)
  | starNil {r : Regex} : Matches (star r) []
  | starAppend {r : Regex} {u v : Word} :
      Matches r u → Matches (star r) v → Matches (star r) (u ++ v)

/-- The language of an expression that may be missing: without expression it is empty. -/
def languageOf : Option Regex → Language
  | none => fun _ => False
  | some r => r.Matches

@[simp] theorem matches_epsilon {w : Word} : Matches epsilon w ↔ w = [] :=
  ⟨fun h => by cases h; rfl, fun h => h ▸ .epsilon⟩

@[simp] theorem matches_symbol {c : Char} {w : Word} : Matches (symbol c) w ↔ w = [c] :=
  ⟨fun h => by cases h; rfl, fun h => h ▸ .symbol c⟩

@[simp] theorem matches_union {l r : Regex} {w : Word} :
    Matches (union l r) w ↔ Matches l w ∨ Matches r w :=
  ⟨fun h => by cases h with
    | unionLeft h => exact .inl h
    | unionRight h => exact .inr h,
    fun h => h.elim .unionLeft .unionRight⟩

@[simp] theorem matches_concat {l r : Regex} {w : Word} :
    Matches (concat l r) w ↔ ∃ u v, Matches l u ∧ Matches r v ∧ u ++ v = w :=
  ⟨fun h => by cases h with
    | concat hu hv => exact ⟨_, _, hu, hv, rfl⟩,
    fun ⟨_, _, hu, hv, h⟩ => h ▸ .concat hu hv⟩

/-- A word of a repetition is empty or starts with a word of the operand. -/
theorem matches_star {r : Regex} {w : Word} :
    Matches (star r) w ↔ w = [] ∨ ∃ u v, Matches r u ∧ Matches (star r) v ∧ u ++ v = w :=
  ⟨fun h => by cases h with
    | starNil => exact .inl rfl
    | starAppend hu hv => exact .inr ⟨_, _, hu, hv, rfl⟩,
    fun h => h.elim (fun h => h ▸ .starNil) fun ⟨_, _, hu, hv, h⟩ => h ▸ .starAppend hu hv⟩

/-- The empty word belongs to the language exactly if the expression is nullable. -/
theorem matches_nil {r : Regex} : Matches r [] ↔ r.nullable = true := by
  induction r with
  | epsilon => simp [nullable]
  | symbol c => simp [nullable]
  | union l r ihl ihr => simp [nullable, ihl, ihr]
  | concat l r ihl ihr => simp [nullable, ← ihl, ← ihr]
  | star r _ => simpa [nullable] using Matches.starNil

end RegularLanguages.Regex
