import RegularLanguages.Proofs.Regex.Printing

/-!
# What printing and reading change

Two expressions that differ only in how their chains of unions and of concatenations are
associated have the same text (`Reassociated`), so reading a text has to choose one of them. The
reader takes the one in which no right operand continues the chain it stands in
(`IsLeftAssociated`), and there is only one: `leftAssociated` is a normal form of `Reassociated`.

Results:
* `Reassociated.leftAssociated_eq`, `Reassociated.eq_leftAssociated`: the expression associated
  to the left is the same for all ways to associate, and the only one of its kind.
* `toText_leftAssociated`: it has the same text.
* `leftAssociated_eq_self_iff`: it is the expression itself exactly if that is associated to the
  left.
* **`parse_toText_leftAssociated`**: the text of an expression is read as the expression
  associated to the left.
-/

namespace RegularLanguages.Regex

variable {l r s : Regex}

/-! ## Association of chains -/

/-- The two expressions differ in how chains of unions and of concatenations are associated, and
in nothing else. -/
inductive Reassociated : Regex → Regex → Prop
  | union_assoc (l m r : Regex) : Reassociated (union (union l m) r) (union l (union m r))
  | concat_assoc (l m r : Regex) : Reassociated (concat (concat l m) r) (concat l (concat m r))
  | refl (r : Regex) : Reassociated r r
  | symm {r s : Regex} : Reassociated r s → Reassociated s r
  | trans {r s t : Regex} : Reassociated r s → Reassociated s t → Reassociated r t
  | union {l l' r r' : Regex} :
      Reassociated l l' → Reassociated r r' → Reassociated (union l r) (union l' r')
  | concat {l l' r r' : Regex} :
      Reassociated l l' → Reassociated r r' → Reassociated (concat l r) (concat l' r')
  | star {r r' : Regex} : Reassociated r r' → Reassociated (star r) (star r')

/-- No right operand of a union is a union, and none of a concatenation a concatenation. -/
def IsLeftAssociated : Regex → Prop
  | union l r => l.IsLeftAssociated ∧ r.IsLeftAssociated ∧ ∀ a b, r ≠ union a b
  | concat l r => l.IsLeftAssociated ∧ r.IsLeftAssociated ∧ ∀ a b, r ≠ concat a b
  | star r => r.IsLeftAssociated
  | _ => True

theorem strength_pos_iff : 0 < r.strength ↔ ∀ a b, r ≠ union a b := by
  cases r <;> simp [strength]

theorem strength_ne_one_iff : r.strength ≠ 1 ↔ ∀ a b, r ≠ concat a b := by
  cases r <;> simp [strength]

/-! ## Reassociating to the left -/

theorem reassociated_unionOnto : Reassociated (union l r) (unionOnto l r) := by
  induction r with
  | union a b ih _ => exact (Reassociated.union_assoc l a b).symm.trans (.union ih (.refl b))
  | _ => exact .refl _

theorem reassociated_concatOnto : Reassociated (concat l r) (concatOnto l r) := by
  induction r with
  | concat a b ih _ => exact (Reassociated.concat_assoc l a b).symm.trans (.concat ih (.refl b))
  | _ => exact .refl _

/-- Associating chains to the left changes nothing else. -/
theorem reassociated_leftAssociated : ∀ r : Regex, Reassociated r r.leftAssociated
  | epsilon => .refl _
  | symbol _ => .refl _
  | union l r => (Reassociated.union (reassociated_leftAssociated l)
      (reassociated_leftAssociated r)).trans reassociated_unionOnto
  | concat l r => (Reassociated.concat (reassociated_leftAssociated l)
      (reassociated_leftAssociated r)).trans reassociated_concatOnto
  | star r => .star (reassociated_leftAssociated r)

/-- All ways to associate lead to the same expression. -/
theorem Reassociated.leftAssociated_eq (h : Reassociated r s) :
    r.leftAssociated = s.leftAssociated := by
  induction h with
  | union_assoc l m r => exact unionOnto_assoc _ _ _
  | concat_assoc l m r => exact concatOnto_assoc _ _ _
  | refl => rfl
  | symm _ ih => exact ih.symm
  | trans _ _ ih ih' => exact ih.trans ih'
  | union _ _ ihl ihr => rw [leftAssociated, ihl, ihr, leftAssociated]
  | concat _ _ ihl ihr => rw [leftAssociated, ihl, ihr, leftAssociated]
  | star _ ih => rw [leftAssociated, ih, leftAssociated]

theorem reassociated_iff : Reassociated r s ↔ r.leftAssociated = s.leftAssociated := by
  constructor
  · exact Reassociated.leftAssociated_eq
  · intro h
    exact (reassociated_leftAssociated r).trans (h ▸ (reassociated_leftAssociated s).symm)

/-! ## The expressions associated to the left -/

theorem isLeftAssociated_unionOnto (hl : l.IsLeftAssociated) (hr : r.IsLeftAssociated) :
    (unionOnto l r).IsLeftAssociated := by
  induction r with
  | union a b ih _ =>
    obtain ⟨ha, hb⟩ := hr
    exact ⟨ih ha, hb⟩
  | _ => exact ⟨hl, hr, by simp⟩

theorem isLeftAssociated_concatOnto (hl : l.IsLeftAssociated) (hr : r.IsLeftAssociated) :
    (concatOnto l r).IsLeftAssociated := by
  induction r with
  | concat a b ih _ =>
    obtain ⟨ha, hb⟩ := hr
    exact ⟨ih ha, hb⟩
  | _ => exact ⟨hl, hr, by simp⟩

theorem isLeftAssociated_leftAssociated : ∀ r : Regex, r.leftAssociated.IsLeftAssociated
  | epsilon => trivial
  | symbol _ => trivial
  | union l r => isLeftAssociated_unionOnto (isLeftAssociated_leftAssociated l)
      (isLeftAssociated_leftAssociated r)
  | concat l r => isLeftAssociated_concatOnto (isLeftAssociated_leftAssociated l)
      (isLeftAssociated_leftAssociated r)
  | star r => isLeftAssociated_leftAssociated r

theorem IsLeftAssociated.leftAssociated_eq : ∀ {r : Regex}, r.IsLeftAssociated →
    r.leftAssociated = r
  | epsilon, _ => rfl
  | symbol _, _ => rfl
  | union l r, ⟨hl, hr, hright⟩ => by
    rw [leftAssociated, hl.leftAssociated_eq, hr.leftAssociated_eq,
      unionOnto_of_strength (strength_pos_iff.mpr hright)]
  | concat l r, ⟨hl, hr, hright⟩ => by
    rw [leftAssociated, hl.leftAssociated_eq, hr.leftAssociated_eq,
      concatOnto_of_strength (strength_ne_one_iff.mpr hright)]
  | star r, h => congrArg star (leftAssociated_eq (r := r) h)

theorem leftAssociated_eq_self_iff : r.leftAssociated = r ↔ r.IsLeftAssociated :=
  ⟨fun h => h ▸ isLeftAssociated_leftAssociated r, IsLeftAssociated.leftAssociated_eq⟩

/-- Nothing else that is associated to the left has the same chains. -/
theorem Reassociated.eq_leftAssociated (h : Reassociated r s) (hs : s.IsLeftAssociated) :
    s = r.leftAssociated := by
  rw [h.leftAssociated_eq, hs.leftAssociated_eq]

/-! ## The text of a chain -/

theorem chars_unionOnto : (unionOnto l r).chars = l.chars ++ '+' :: r.chars := by
  induction r with
  | union a b ih _ => rw [unionOnto, chars, ih, chars, List.append_assoc, List.cons_append]
  | _ => rfl

theorem guarded_concat (l r : Regex) :
    guarded 1 (concat l r) (concat l r).chars = guarded 1 l l.chars ++ guarded 1 r r.chars := rfl

theorem chars_concatOnto :
    (concatOnto l r).chars = guarded 1 l l.chars ++ guarded 1 r r.chars := by
  induction r with
  | concat a b ih _ =>
    have hla : guarded 1 (concatOnto l a) (concatOnto l a).chars = (concatOnto l a).chars :=
      if_neg (by simp)
    rw [concatOnto, chars, hla, ih, guarded_concat, List.append_assoc]
  | _ => rfl

theorem guarded_leftAssociated (required : Nat) (r : Regex) (text : List Char) :
    guarded required r.leftAssociated text = guarded required r text := by
  rw [guarded, guarded, strength_leftAssociated]

theorem chars_leftAssociated : ∀ r : Regex, r.leftAssociated.chars = r.chars
  | epsilon => rfl
  | symbol _ => rfl
  | union l r => by
    rw [leftAssociated, chars_unionOnto, chars_leftAssociated l, chars_leftAssociated r, chars]
  | concat l r => by
    rw [leftAssociated, chars_concatOnto, guarded_leftAssociated, guarded_leftAssociated,
      chars_leftAssociated l, chars_leftAssociated r, chars]
  | star r => by
    rw [leftAssociated, chars, guarded_leftAssociated, chars_leftAssociated r, chars]

/-- **The text does not show how chains are associated.** -/
theorem toText_leftAssociated (r : Regex) : r.leftAssociated.toText = r.toText :=
  congrArg String.ofList (chars_leftAssociated r)

/-! ## Printing and reading -/

/-- **The text of an expression is read as the expression with its chains associated to the
left.** What is read differs from the expression in the association of chains only, and is the
only such expression in which no right operand continues a chain. It has the same language and
the same text, and it is the expression itself exactly if that is associated to the left. -/
theorem parse_toText_leftAssociated (h : r.Writable) :
    parse r.toText = .ok r.leftAssociated ∧
      Reassociated r r.leftAssociated ∧ r.leftAssociated.IsLeftAssociated ∧
      (∀ s, Reassociated r s → s.IsLeftAssociated → s = r.leftAssociated) ∧
      (∀ w, r.leftAssociated.Matches w ↔ r.Matches w) ∧
      r.leftAssociated.toText = r.toText ∧
      (r.leftAssociated = r ↔ r.IsLeftAssociated) :=
  ⟨parse_toText h, reassociated_leftAssociated r, isLeftAssociated_leftAssociated r,
    fun _ => Reassociated.eq_leftAssociated, fun _ => matches_leftAssociated,
    toText_leftAssociated r, leftAssociated_eq_self_iff⟩

/-- A chain of unions associated to the right, with a repeated repetition and the empty word. -/
theorem parse_toText_of_right_chain :
    Writable (union (symbol 'a') (union (concat epsilon (star (star (symbol 'b'))))
      (symbol 'c'))) ∧
    parse "a+εb**+c" = .ok (union (union (symbol 'a') (concat epsilon (star (star (symbol 'b')))))
      (symbol 'c')) := by
  have h : Writable (union (symbol 'a') (union (concat epsilon (star (star (symbol 'b'))))
      (symbol 'c'))) := by
    intro c hc
    have hcases : c = 'a' ∨ c = 'b' ∨ c = 'c' := by simpa [leaves] using hc
    rcases hcases with rfl | rfl | rfl
    · exact ⟨by decide +kernel, by decide⟩
    · exact ⟨by decide +kernel, by decide⟩
    · exact ⟨by decide +kernel, by decide⟩
  exact ⟨h, (parse_toText_leftAssociated h).1⟩

end RegularLanguages.Regex
