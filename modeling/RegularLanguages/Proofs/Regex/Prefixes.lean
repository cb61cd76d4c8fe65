import Mathlib.Data.List.Induction
import RegularLanguages.Proofs.Regex.Parentheses
import RegularLanguages.Proofs.Regex.Scanning

/-!
# Texts that begin an expression

What the reader holds after a text (`Reading.After`) says how the text goes on to a complete
expression: with an operand if none has been read, and then with a closing parenthesis for each
open group. So the reader gets through a text iff some complete expression starts with it.

Results:
* `After.induction`: what each character keeps holds after every text.
* `opened_of_after`: the open groups are the parentheses that wait for a partner.
* `isSome_operand_of_endsWithOperand`, `endsWithOperand_of_after`: the reader holds an operand iff
  the text ends with one.
* **`beginsExpression_iff`**, **`isWellFormed_iff`**: what the reader holds after the beginning of
  an expression, and after a complete one.
-/

namespace RegularLanguages.Regex

variable {cs front rest : List Char} {c : Char} {position : Nat}

/-! ## Reading the beginning of a text -/

/-- What the reader holds after the text. -/
def Reading.After (cs : List Char) (reading : Reading) : Prop :=
  ∃ found, Token.scan 0 cs = .ok found ∧ found.foldlM Reading.step .start = .ok reading

namespace Reading

open Token (ofChar?)

variable {reading reading' between : Reading} {t : Token} {f : RegexError}

theorem after_nil : After [] start := ⟨[], rfl, rfl⟩

theorem After.unique (h : After cs reading) (h' : After cs reading') : reading = reading' := by
  obtain ⟨found, hscan, hfold⟩ := h
  obtain ⟨found', hscan', hfold'⟩ := h'
  rw [hscan] at hscan'
  obtain rfl := Except.ok.inj hscan'
  rw [hfold] at hfold'
  exact Except.ok.inj hfold'

theorem After.isAdmissible (h : After cs reading) : ∀ c ∈ cs, isAdmissible c = true := by
  obtain ⟨found, hscan, -⟩ := h
  exact Token.exists_scan_eq_ok_iff.mp ⟨found, hscan⟩

/-- A text is read part by part. -/
theorem after_append_iff :
    After (front ++ rest) reading ↔ ∃ between, After front between ∧
      ∃ found, Token.scan front.length rest = .ok found ∧
        found.foldlM step between = .ok reading := by
  unfold After
  rw [Token.scan_append, Nat.zero_add]
  simp only [bind_eq_ok_iff]
  constructor
  · rintro ⟨_, ⟨l, hl, m, hm, hfound⟩, hfold⟩
    obtain rfl := Except.ok.inj hfound
    rw [List.foldlM_append] at hfold
    obtain ⟨between, hbetween, hfold⟩ := bind_eq_ok hfold
    exact ⟨between, ⟨l, hl, hbetween⟩, m, hm, hfold⟩
  · rintro ⟨between, ⟨l, hl, hbetween⟩, m, hm, hfold⟩
    exact ⟨l ++ m, ⟨l, hl, m, hm, rfl⟩, foldlM_append_of_ok hbetween hfold⟩

theorem after_concat_of_isBlank (hc : Text.isBlank c = true) :
    After (cs ++ [c]) reading ↔ After cs reading := by
  rw [after_append_iff, Token.scan_cons_of_isBlank hc]
  constructor
  · rintro ⟨between, h, found, hscan, hfold⟩
    obtain rfl := Except.ok.inj hscan
    exact Except.ok.inj hfold ▸ h
  · intro h
    exact ⟨reading, h, [], rfl, rfl⟩

theorem after_concat_iff (hc : Text.isBlank c = false) (ht : ofChar? c = some t) :
    After (cs ++ [c]) reading ↔
      ∃ between, After cs between ∧ between.step (cs.length, t) = .ok reading := by
  rw [after_append_iff, Token.scan_cons_of_ofChar? hc ht]
  refine exists_congr fun between => and_congr_right fun _ => ?_
  constructor
  · rintro ⟨found, hscan, hfold⟩
    obtain rfl := Except.ok.inj hscan
    obtain ⟨_, hstep, hfold⟩ := bind_eq_ok hfold
    rw [hstep, ← Except.ok.inj hfold]
  · intro hstep
    refine ⟨[(cs.length, t)], rfl, ?_⟩
    rw [List.foldlM_cons, hstep]
    rfl

/-- **One character after the other**: what holds at the start, and is kept by a blank and by
reading one token, holds of every text and what the reader holds after it. -/
theorem After.induction {P : List Char → Reading → Prop} (hstart : P [] start)
    (hblank : ∀ cs c reading, P cs reading → Text.isBlank c = true → P (cs ++ [c]) reading)
    (htoken : ∀ cs c t reading reading', P cs reading → Text.isBlank c = false →
      ofChar? c = some t → reading.step (cs.length, t) = .ok reading' → P (cs ++ [c]) reading')
    (h : After cs reading) : P cs reading := by
  induction cs using List.reverseRecOn generalizing reading with
  | nil => exact after_nil.unique h ▸ hstart
  | append_singleton cs c ih =>
    cases hc : Text.isBlank c with
    | true => exact hblank cs c reading (ih ((after_concat_of_isBlank hc).mp h)) hc
    | false =>
      cases ht : ofChar? c with
      | none =>
        obtain ⟨t, hsome⟩ :=
          Token.exists_ofChar?_of_isAdmissible (h.isAdmissible c (by simp)) hc
        exact absurd (ht.symm.trans hsome) (by simp)
      | some t =>
        obtain ⟨between, hbetween, hstep⟩ := (after_concat_iff hc ht).mp h
        exact htoken cs c t between reading (ih hbetween) hc ht hstep

/-! ## What one token does -/

/-- Behind a token there is an operand iff the token can end one. -/
theorem isSome_operand_of_step (h : reading.step (position, t) = .ok reading') :
    reading'.operand.isSome = t.endsOperand := by
  obtain ⟨done, operand, outer⟩ := reading
  cases t with
  | symbol c => rw [← Except.ok.inj h, atom_eq]; rfl
  | epsilon => rw [← Except.ok.inj h, atom_eq]; rfl
  | opening => rw [← Except.ok.inj h, openGroup_eq]; rfl
  | closing =>
    cases operand with
    | none => cases h
    | some r =>
      cases outer with
      | nil => cases h
      | cons group outer => rw [← Except.ok.inj h]; rfl
  | _ =>
    cases operand with
    | none => cases h
    | some r => rw [← Except.ok.inj h]; rfl

/-- A token is refused where an operand is needed, and a closing parenthesis also where no group
is open. -/
theorem step_eq_error (h : reading.step (position, t) = .error f) :
    (reading.operand = none ∧ f = .unexpectedToken position t.toChar) ∨
      ((∃ r, reading.operand = some r) ∧ reading.outer = [] ∧ t = .closing ∧
        f = .unmatched position ')') := by
  obtain ⟨done, operand, outer⟩ := reading
  cases operand with
  | none =>
    refine Or.inl ⟨rfl, ?_⟩
    cases t with
    | symbol c => cases h
    | epsilon => cases h
    | opening => cases h
    | _ => exact (Except.error.inj h).symm
  | some r =>
    cases t with
    | closing =>
      cases outer with
      | nil => exact Or.inr ⟨⟨r, rfl⟩, rfl, rfl, (Except.error.inj h).symm⟩
      | cons group outer => cases h
    | _ => cases h

/-- The positions of the open groups, the innermost one first. -/
def openPositions (reading : Reading) : List Nat := reading.outer.map Prod.fst

/-- What a token at a position does to the positions of the open groups. -/
def MovesOpen (position : Nat) (before after : List Nat) : Token → Prop
  | .opening => after = position :: before
  | .closing => ∃ top, before = top :: after
  | _ => after = before

theorem movesOpen_of_step (h : reading.step (position, t) = .ok reading') :
    MovesOpen position reading.openPositions reading'.openPositions t := by
  obtain ⟨done, operand, outer⟩ := reading
  cases t with
  | symbol c => rw [← Except.ok.inj h, atom_eq]; rfl
  | epsilon => rw [← Except.ok.inj h, atom_eq]; rfl
  | opening => rw [← Except.ok.inj h, openGroup_eq]; rfl
  | closing =>
    cases operand with
    | none => cases h
    | some r =>
      cases outer with
      | nil => cases h
      | cons group outer =>
        rw [← Except.ok.inj h]
        exact ⟨group.1, rfl⟩
  | _ =>
    cases operand with
    | none => cases h
    | some r => rw [← Except.ok.inj h]; rfl

/-- **One token acts on the open groups as its character does on the open parentheses.** -/
theorem opened_of_step (h : Opened reading.openPositions cs) (hc : ofChar? c = some t)
    (hstep : reading.step (cs.length, t) = .ok reading') :
    Opened reading'.openPositions (cs ++ [c]) := by
  have hmoves := movesOpen_of_step hstep
  have hchar := Token.toChar_of_ofChar? hc
  have hopening : c = '(' → t = .opening := by
    rintro rfl
    exact (Option.some.inj ((by decide : ofChar? '(' = some .opening).symm.trans hc)).symm
  have hclosing : c = ')' → t = .closing := by
    rintro rfl
    exact (Option.some.inj ((by decide : ofChar? ')' = some .closing).symm.trans hc)).symm
  cases t with
  | opening =>
    rw [← hchar, show reading'.openPositions = _ from hmoves]
    exact h.opening
  | closing =>
    obtain ⟨top, htop⟩ := hmoves
    rw [htop] at h
    rw [← hchar]
    exact h.closing
  | _ =>
    rw [show reading'.openPositions = _ from hmoves]
    exact h.other (fun hc => nomatch hopening hc) fun hc => nomatch hclosing hc

/-! ## What the reader holds -/

/-- **The open groups are the parentheses that wait for a partner.** -/
theorem opened_of_after (h : After cs reading) : Opened reading.openPositions cs := by
  refine h.induction (P := fun cs reading => Opened reading.openPositions cs) (.nil .nil) ?_ ?_
  · intro cs c reading h hc
    exact h.other (fun hopening => by subst hopening; exact absurd hc (by decide))
      fun hclosing => by subst hclosing; exact absurd hc (by decide)
  · intro cs c t reading reading' h _ ht hstep
    exact opened_of_step h ht hstep

/-- What the reader holds accounts for the characters that are no blanks. -/
theorem exists_covers_of_after (h : After cs reading) :
    ∃ ts, reading.Covers ts ∧ (∀ t ∈ ts, t.Readable) ∧ ts.map Token.toChar = significant cs := by
  obtain ⟨found, hscan, hfold⟩ := h
  have hstart : Reading.start.Covers [] := ⟨[], [], [], .nil, covers_start, .none, rfl⟩
  exact ⟨found.map Prod.snd, covers_foldlM hstart hfold,
    (Token.scan_eq_ok_iff cs 0).mp ⟨found, hscan, rfl⟩⟩

/-- Where the text ends with an operand, the reader holds one. -/
theorem isSome_operand_of_endsWithOperand (h : After cs reading) :
    EndsWithOperand cs → reading.operand.isSome = true := by
  refine h.induction (P := fun cs reading => EndsWithOperand cs → reading.operand.isSome = true)
    ?_ ?_ ?_
  · intro hends
    obtain ⟨us, u, hlast, -, -⟩ := exists_last_of_endsWithOperand hends
    exact absurd hlast (by simp [significant])
  · intro cs c reading ih hc hends
    rw [EndsWithOperand, significant_concat_of_isBlank hc] at hends
    exact ih hends
  · intro cs c t reading reading' _ hc ht hstep hends
    obtain ⟨us, u, hlast, hu, hoperand⟩ := exists_last_of_endsWithOperand hends
    rw [significant_concat hc, List.append_singleton_inj] at hlast
    rw [hlast.2, hu.2] at ht
    rw [isSome_operand_of_step hstep, ← Option.some.inj ht]
    exact hoperand

/-- Where the reader holds an operand, the text ends with one. -/
theorem endsWithOperand_of_after {r : Regex} (h : After cs reading)
    (hr : reading.operand = some r) : EndsWithOperand cs := by
  obtain ⟨ts, ⟨us, vs, ws, -, -, hoperand, rfl⟩, hread, hchars⟩ := exists_covers_of_after h
  rw [hr] at hoperand
  cases hoperand with
  | some hfactor =>
    obtain ⟨f, rfl, -⟩ := Derivation.exists_factor hfactor (List.forall_mem_append.mp hread).2
    exact ⟨(us ++ vs).map Token.toChar, f, by rw [← hchars, List.map_append]; rfl⟩

/-! ## What is missing -/

/-- **Closing the open groups** behind an operand completes the expression. -/
theorem exists_isExpression_of_covers : ∀ {outer : List (Nat × Finished)}
    {done : Finished} {r : Regex} {ts : List Token}, Reading.Covers ⟨done, some r, outer⟩ ts →
      ∃ e, IsExpression (ts ++ List.replicate outer.length .closing) e
  | [], done, r, ts, h => by
    have hfinish : Reading.finish ⟨done, some r, []⟩ 0 = .ok (done.whole r) := rfl
    rw [List.length_nil, List.replicate_zero, List.append_nil]
    exact ⟨_, isExpression_of_finish h hfinish⟩
  | (position, outside) :: outer, done, r, ts, h => by
    have hstep : Reading.step ⟨done, some r, (position, outside) :: outer⟩ (0, .closing) =
        .ok ⟨outside, some (done.whole r), outer⟩ := rfl
    obtain ⟨e, he⟩ := exists_isExpression_of_covers (covers_step h hstep)
    rw [List.append_assoc, List.singleton_append] at he
    exact ⟨e, he⟩

/-- An operand is read where none is held. -/
theorem covers_factor {done : Finished} {outer : List (Nat × Finished)} {ts us : List Token}
    {r : Regex} (h : Reading.Covers ⟨done, none, outer⟩ ts) (hr : IsFactor us r) :
    Reading.Covers ⟨done, some r, outer⟩ (ts ++ us) := by
  obtain ⟨fs, gs, ws, houter, hdone, hoperand, rfl⟩ := h
  cases hoperand with
  | none =>
    rw [List.append_nil]
    exact ⟨fs, gs, us, houter, hdone, .some hr, rfl⟩

end Reading

open Reading

variable {reading : Reading} {f : RegexError}

/-- What the grammar derives from the characters that are no blanks is well formed. -/
theorem isWellFormed_of_isExpression {ts : List Token} {r : Regex} (hts : ∀ t ∈ ts, t.Readable)
    (hchars : ts.map Token.toChar = significant cs) (h : IsExpression ts r) :
    IsWellFormed cs := by
  obtain ⟨e, rfl, -⟩ := (Derivation.isExpression_iff hts).mp h
  exact ⟨e, hchars⟩

/-- Readable tokens behind a text are its further characters. -/
theorem map_toChar_append {ts us : List Token} (hts : ts.map Token.toChar = significant cs)
    (hus : ∀ u ∈ us, u.Readable) :
    (ts ++ us).map Token.toChar = significant (cs ++ us.map Token.toChar) := by
  rw [List.map_append, hts, significant_append, Token.significant_map_toChar hus]

theorem readable_of_mem_replicate {n : Nat} :
    ∀ t ∈ List.replicate n Token.closing, t.Readable := by
  intro t ht
  rw [List.eq_of_mem_replicate ht]
  exact ⟨by decide, by decide⟩

/-- Behind an operand, closing parentheses complete the text. -/
theorem exists_isWellFormed_of_covers {done : Finished} {outer : List (Nat × Finished)}
    {r : Regex} {ts : List Token} (h : Reading.Covers ⟨done, some r, outer⟩ ts)
    (hts : ∀ t ∈ ts, t.Readable) (hchars : ts.map Token.toChar = significant cs) :
    IsWellFormed (cs ++ List.replicate outer.length ')') := by
  obtain ⟨e, he⟩ := exists_isExpression_of_covers h
  have hclosing := map_toChar_append hchars (readable_of_mem_replicate (n := outer.length))
  rw [List.map_replicate] at hclosing
  exact isWellFormed_of_isExpression
    (List.forall_mem_append.mpr ⟨hts, readable_of_mem_replicate⟩) hclosing he

theorem lacksOperand_of_after (h : After cs reading) (hnone : reading.operand = none) :
    LacksOperand cs := by
  refine ⟨fun hends => ?_, reading.outer.length, fun f => ?_⟩
  · have hsome := isSome_operand_of_endsWithOperand h hends
    rw [hnone] at hsome
    exact absurd hsome (by simp)
  · obtain ⟨ts, hcovers, hts, hchars⟩ := exists_covers_of_after h
    obtain ⟨done, operand, outer⟩ := reading
    obtain rfl : operand = none := hnone
    exact exists_isWellFormed_of_covers (covers_factor hcovers f.isFactor)
      (List.forall_mem_append.mpr ⟨hts, f.readable⟩) (map_toChar_append hchars f.readable)

theorem LacksOperand.beginsExpression (h : LacksOperand cs) : BeginsExpression cs := by
  obtain ⟨-, n, h⟩ := h
  have hε := h (.atom .epsilon)
  rw [List.append_assoc] at hε
  exact ⟨_, hε⟩

/-- **A text is well formed** iff the reader holds an operand after it and no group is open. -/
theorem isWellFormed_iff :
    IsWellFormed cs ↔
      ∃ reading r, After cs reading ∧ reading.operand = some r ∧ reading.outer = [] := by
  constructor
  · rintro ⟨e, he⟩
    have hparse := parseChars_eq_ok_iff_exists_derivation.mpr ⟨e, he, rfl⟩
    obtain ⟨found, hscan, hparse⟩ := bind_eq_ok hparse
    split at hparse
    · exact absurd hparse (by simp)
    · obtain ⟨⟨done, operand, outer⟩, hfold, hfinish⟩ := bind_eq_ok hparse
      cases operand with
      | none => exact absurd hfinish (by simp [finish])
      | some r =>
        cases outer with
        | nil => exact ⟨_, r, ⟨found, hscan, hfold⟩, rfl, rfl⟩
        | cons group outer => exact absurd hfinish (by simp [finish])
  · rintro ⟨⟨done, operand, outer⟩, r, h, rfl, rfl⟩
    obtain ⟨ts, hcovers, hts, hchars⟩ := exists_covers_of_after h
    have hwhole := exists_isWellFormed_of_covers hcovers hts hchars
    rwa [List.length_nil, List.replicate_zero, List.append_nil] at hwhole

/-- **The reader goes on as long as the text begins an expression.** -/
theorem beginsExpression_iff : BeginsExpression cs ↔ ∃ reading, After cs reading := by
  constructor
  · rintro ⟨rest, h⟩
    obtain ⟨whole, -, hwhole, -, -⟩ := isWellFormed_iff.mp h
    obtain ⟨reading, h, -⟩ := after_append_iff.mp hwhole
    exact ⟨reading, h⟩
  · rintro ⟨⟨done, operand, outer⟩, h⟩
    cases operand with
    | none => exact (lacksOperand_of_after h rfl).beginsExpression
    | some r =>
      obtain ⟨ts, hcovers, hts, hchars⟩ := exists_covers_of_after h
      exact ⟨_, exists_isWellFormed_of_covers hcovers hts hchars⟩

end RegularLanguages.Regex
