import RegularLanguages.Proofs.Outcome
import RegularLanguages.Proofs.Text.Alphanumeric
import RegularLanguages.Regex.Grammar

/-!
# The reader follows the grammar

The reader keeps no stack of operators: what it has read is the finished part of the group at
hand and one operand. For each nonterminal of the grammar there is one statement about what the
reader holds when it has read the tokens of a derivation, and each rule of the grammar is one
case.

Results:
* `scan_eq_ok_iff`: what is scanned are the characters that are no blanks.
* `reads_of_isFactor`, `reads_of_isTerm`, `reads_of_isExpression`: what the reader holds after
  the tokens of a derivation.
* **`parseChars_of_isExpression`**: whatever the grammar derives is read with its tree.
* **`leaves_of_parseChars`**: the leaves of what is read are the symbols of the text, in order.
-/

namespace RegularLanguages.Regex

/-! ## The characters that are no blanks -/

section Significant

variable {c : Char} {cs : List Char}

theorem significant_append (front rest : List Char) :
    significant (front ++ rest) = significant front ++ significant rest :=
  List.filter_append front rest

theorem significant_cons_of_isBlank (hc : Text.isBlank c = true) :
    significant (c :: cs) = significant cs :=
  List.filter_cons_of_neg (by simp [hc])

theorem significant_cons (hc : Text.isBlank c = false) :
    significant (c :: cs) = c :: significant cs :=
  List.filter_cons_of_pos (by simp [hc])

theorem significant_concat_of_isBlank (hc : Text.isBlank c = true) :
    significant (cs ++ [c]) = significant cs := by
  rw [significant_append, significant_cons_of_isBlank hc]
  exact List.append_nil _

theorem significant_concat (hc : Text.isBlank c = false) :
    significant (cs ++ [c]) = significant cs ++ [c] := by
  rw [significant_append, significant_cons hc]
  rfl

theorem significant_of_isBlank (h : ∀ c ∈ cs, Text.isBlank c = true) : significant cs = [] :=
  List.filter_eq_nil_iff.mpr fun c hc => by simp [h c hc]

end Significant

/-! ## Scanning -/

namespace Token

/-- The character that the token is written as is no blank and is read as this token. -/
def Readable (t : Token) : Prop := Text.isBlank t.toChar = false ∧ ofChar? t.toChar = some t

theorem readable_symbol {c : Char} (h : Text.isAlphanumeric c = true) (hε : c ≠ epsilonChar) :
    (symbol c).Readable := by
  refine ⟨Text.not_isBlank_of_isAlphanumeric h, ?_⟩
  have hne {d : Char} := Text.ne_of_isAlphanumeric h (d := d)
  unfold ofChar?
  rw [toChar, if_neg hε, if_neg (not_or.mpr ⟨hne (by decide +kernel), hne (by decide +kernel)⟩),
    if_neg (hne (by decide +kernel)), if_neg (hne (by decide +kernel)),
    if_neg (hne (by decide +kernel)), if_neg (hne (by decide +kernel)), if_pos h]

theorem readable_epsilon : epsilon.Readable := by
  refine ⟨by decide, by decide⟩

theorem toChar_of_ofChar? {c : Char} {t : Token} (h : ofChar? c = some t) : t.toChar = c := by
  unfold ofChar? at h
  grind [toChar]

theorem readable_of_ofChar? {c : Char} {t : Token} (h : ofChar? c = some t)
    (hc : Text.isBlank c = false) : t.Readable := by
  have htc := toChar_of_ofChar? h
  exact ⟨htc ▸ hc, htc ▸ h⟩

/-- **Scanning finds the tokens of the characters that are no blanks.** -/
theorem scan_eq_ok_iff : ∀ (cs : List Char) (position : Nat) {ts : List Token},
    (∃ found, scan position cs = .ok found ∧ found.map Prod.snd = ts) ↔
      (∀ t ∈ ts, t.Readable) ∧ ts.map toChar = significant cs
  | [], position, ts => by
    constructor
    · rintro ⟨found, h, rfl⟩
      rw [← Except.ok.inj h]
      simp [significant]
    · rintro ⟨-, h⟩
      exact ⟨[], rfl, (List.map_eq_nil_iff.mp h).symm⟩
  | c :: cs, position, ts => by
    rw [scan, significant]
    by_cases hc : Text.isBlank c = true
    · rw [if_pos hc, List.filter_cons_of_neg (by simp [hc])]
      exact scan_eq_ok_iff cs (position + 1)
    · rw [if_neg hc, List.filter_cons_of_pos (by simp [hc])]
      rw [Bool.not_eq_true] at hc
      constructor
      · rintro ⟨found, h, rfl⟩
        cases ht : ofChar? c with
        | none =>
          rw [ht] at h
          exact absurd h (by simp)
        | some t =>
          rw [ht] at h
          obtain ⟨rest, hscan, rfl⟩ := map_eq_ok h
          obtain ⟨hread, hchars⟩ := (scan_eq_ok_iff cs (position + 1)).mp ⟨rest, hscan, rfl⟩
          rw [List.map_cons, List.forall_mem_cons, List.map_cons, hchars, toChar_of_ofChar? ht]
          exact ⟨⟨readable_of_ofChar? ht hc, hread⟩, rfl⟩
      · rintro ⟨hread, hchars⟩
        obtain ⟨t, ts, rfl, rfl, hrest⟩ := List.map_eq_cons_iff.mp hchars
        obtain ⟨ht, hts⟩ := List.forall_mem_cons.mp hread
        obtain ⟨rest, hscan, rfl⟩ :=
          (scan_eq_ok_iff cs (position + 1)).mpr ⟨hts, hrest⟩
        refine ⟨(position, t) :: rest, ?_, rfl⟩
        rw [ht.2, hscan]
        rfl

/-- Readable tokens are written without blanks. -/
theorem significant_map_toChar {ts : List Token} (h : ∀ t ∈ ts, t.Readable) :
    significant (ts.map toChar) = ts.map toChar := by
  refine List.filter_eq_self.mpr fun c hc => ?_
  obtain ⟨t, ht, rfl⟩ := List.mem_map.mp hc
  rw [(h t ht).1, Bool.not_false]

/-- The symbol of a token, if it is one. -/
def symbol? : Token → Option Char
  | symbol c => some c
  | _ => none

/-- Only letters and digits are symbols, those that are no other token. -/
theorem symbol_of_ofChar? {c : Char} {t : Token} (h : ofChar? c = some t) :
    ∀ d, t.symbol? = some d → Text.isAlphanumeric d = true ∧ d ≠ epsilonChar := by
  intro d hd
  cases t with
  | symbol d' =>
    obtain rfl : d' = d := Option.some.inj hd
    unfold ofChar? at h
    grind
  | _ => exact absurd hd (by simp [symbol?])

end Token

/-! ## Reading the tokens of a derivation -/

/-- What is finished in front of the next operand, when `operand` has just been read. -/
def Finished.behind (done : Finished) : Option Regex → Finished
  | none => done
  | some l => done.nextFactor l

namespace Reading

/-- Reading the tokens, wherever they stand, leads from one state of the reader to another. -/
def Reads (before : Reading) (ts : List Token) (after : Reading) : Prop :=
  ∀ found : List (Nat × Token), found.map Prod.snd = ts → found.foldlM step before = .ok after

variable {before between after : Reading} {ts us : List Token} {t : Token}

theorem Reads.append (h : before.Reads ts between) (h' : between.Reads us after) :
    before.Reads (ts ++ us) after := by
  intro found hfound
  obtain ⟨l, m, rfl, hl, hm⟩ := List.map_eq_append_iff.mp hfound
  exact foldlM_append_of_ok (h l hl) (h' m hm)

/-- One token, and then the others. -/
theorem Reads.cons (h : ∀ position, before.step (position, t) = .ok between)
    (h' : between.Reads us after) : before.Reads (t :: us) after := by
  intro found hfound
  obtain ⟨⟨position, t⟩, rest, rfl, rfl, hrest⟩ := List.map_eq_cons_iff.mp hfound
  rw [List.foldlM_cons, h position]
  exact h' rest hrest

theorem reads_singleton (h : ∀ position, before.step (position, t) = .ok after) :
    before.Reads [t] after := by
  intro found hfound
  obtain ⟨⟨position, t⟩, rfl, rfl⟩ := List.map_eq_singleton_iff.mp hfound
  rw [List.foldlM_cons, h position]
  rfl

/-- An operand that is a single token. -/
theorem atom_eq (done : Finished) (operand : Option Regex) (outer : List (Nat × Finished))
    (r : Regex) :
    Reading.atom ⟨done, operand, outer⟩ r = ⟨done.behind operand, some r, outer⟩ := by
  cases operand <;> rfl

theorem openGroup_eq (done : Finished) (operand : Option Regex) (outer : List (Nat × Finished))
    (position : Nat) :
    Reading.openGroup ⟨done, operand, outer⟩ position =
      ⟨.start, none, (position, done.behind operand) :: outer⟩ := by
  cases operand <;> rfl

end Reading

open Reading

variable {ts us : List Token} {l r : Regex}

mutual

/-- The tokens of an expression fill the group at hand. -/
theorem reads_of_isExpression {ts : List Token} {r : Regex} : IsExpression ts r →
    ∀ outer, ∃ done f, Reads ⟨.start, none, outer⟩ ts ⟨done, some f, outer⟩ ∧ done.whole f = r
  | .term h, outer => by
    obtain ⟨factors, f, hread, hterm⟩ := reads_of_isTerm h none outer
    exact ⟨_, f, hread, hterm⟩
  | .union c hl hr, outer => by
    obtain ⟨done, f, hread, rfl⟩ := reads_of_isExpression hl outer
    obtain ⟨factors, g, hread', rfl⟩ := reads_of_isTerm hr (some (done.whole f)) outer
    exact ⟨_, g, hread.append (.cons (fun _ => rfl) hread'), rfl⟩

/-- The tokens of a term are read as the current alternative. -/
theorem reads_of_isTerm {ts : List Token} {r : Regex} : IsTerm ts r →
    ∀ alternatives outer, ∃ factors f,
      Reads ⟨⟨alternatives, none⟩, none, outer⟩ ts ⟨⟨alternatives, factors⟩, some f, outer⟩ ∧
        Finished.term ⟨alternatives, factors⟩ f = r
  | .factor h, alternatives, outer => ⟨none, r, reads_of_isFactor h _ none outer, rfl⟩
  | .dotted hl hr, alternatives, outer => by
    obtain ⟨factors, f, hread, rfl⟩ := reads_of_isTerm hl alternatives outer
    have hfactor := reads_of_isFactor hr (Finished.nextFactor ⟨alternatives, factors⟩ f) none outer
    exact ⟨_, _, hread.append (.cons (fun _ => rfl) hfactor), rfl⟩
  | .juxtaposed hl hr, alternatives, outer => by
    obtain ⟨factors, f, hread, rfl⟩ := reads_of_isTerm hl alternatives outer
    have hfactor := reads_of_isFactor hr ⟨alternatives, factors⟩ (some f) outer
    exact ⟨_, _, hread.append hfactor, rfl⟩

/-- The tokens of a factor are read as the next operand. -/
theorem reads_of_isFactor {ts : List Token} {r : Regex} : IsFactor ts r →
    ∀ done operand outer,
      Reads ⟨done, operand, outer⟩ ts ⟨done.behind operand, some r, outer⟩
  | .atom h, done, operand, outer => reads_of_isAtom h done operand outer
  | .star h, done, operand, outer =>
    (reads_of_isFactor h done operand outer).append (reads_singleton fun _ => rfl)

theorem reads_of_isAtom {ts : List Token} {r : Regex} : IsAtom ts r →
    ∀ done operand outer,
      Reads ⟨done, operand, outer⟩ ts ⟨done.behind operand, some r, outer⟩
  | .symbol c, done, operand, outer =>
    reads_singleton fun _ => congrArg Except.ok (atom_eq done operand outer _)
  | .epsilon, done, operand, outer =>
    reads_singleton fun _ => congrArg Except.ok (atom_eq done operand outer _)
  | .group h, done, operand, outer => by
    intro found hfound
    rw [List.cons_append] at hfound
    obtain ⟨⟨position, t⟩, rest, rfl, rfl, hrest⟩ := List.map_eq_cons_iff.mp hfound
    obtain ⟨inner, f, hread, rfl⟩ :=
      reads_of_isExpression h ((position, done.behind operand) :: outer)
    have hclose : Reads ⟨inner, some f, (position, done.behind operand) :: outer⟩ [.closing]
        ⟨done.behind operand, some (inner.whole f), outer⟩ := reads_singleton fun _ => rfl
    have hopen : Reading.step ⟨done, operand, outer⟩ (position, .opening) =
        .ok ⟨.start, none, (position, done.behind operand) :: outer⟩ :=
      congrArg Except.ok (openGroup_eq done operand outer position)
    rw [List.foldlM_cons, hopen]
    exact (hread.append hclose) rest hrest

end

/-- **What the grammar derives is read with its tree**, wherever blanks stand. -/
theorem parseChars_of_isExpression {cs : List Char} (hts : ∀ t ∈ ts, t.Readable)
    (hcs : ts.map Token.toChar = significant cs) (h : IsExpression ts r) :
    parseChars cs = .ok r := by
  obtain ⟨found, hscan, hfound⟩ := (Token.scan_eq_ok_iff cs 0).mpr ⟨hts, hcs⟩
  obtain ⟨done, f, hread, rfl⟩ := reads_of_isExpression h []
  have hfold := hread found hfound
  unfold parseChars
  rw [hscan]
  cases found with
  | nil => exact absurd (congrArg Reading.operand (Except.ok.inj hfold)) (by simp)
  | cons t found =>
    show (do
      let reading ← (t :: found).foldlM Reading.step Reading.start
      reading.finish cs.length) = _
    rw [Reading.start, hfold]
    rfl

/-! ## The leaves of what is read -/

/-- The leaves of what is finished in a group. -/
def Finished.leaves (done : Finished) : List Char :=
  done.alternatives.toList.flatMap Regex.leaves ++ done.factors.toList.flatMap Regex.leaves

/-- The leaves of everything that has been read, in the order of the text. -/
def Reading.leaves (reading : Reading) : List Char :=
  reading.outer.reverse.flatMap (fun group => group.2.leaves) ++ reading.done.leaves ++
    reading.operand.toList.flatMap Regex.leaves

@[simp] theorem leaves_start : Finished.start.leaves = [] := rfl

theorem leaves_term (done : Finished) (r : Regex) :
    (done.term r).leaves = done.factors.toList.flatMap Regex.leaves ++ r.leaves := by
  unfold Finished.term
  cases done.factors with
  | none => simp
  | some l => simp [Regex.leaves]

theorem leaves_whole (done : Finished) (r : Regex) :
    (done.whole r).leaves = done.leaves ++ r.leaves := by
  unfold Finished.whole Finished.leaves
  cases done.alternatives with
  | none => simp [leaves_term]
  | some l => simp [leaves_term, Regex.leaves]

theorem leaves_nextFactor (done : Finished) (r : Regex) :
    (done.nextFactor r).leaves = done.leaves ++ r.leaves := by
  simp [Finished.nextFactor, Finished.leaves, leaves_term]

theorem leaves_nextAlternative (done : Finished) (r : Regex) :
    (done.nextAlternative r).leaves = done.leaves ++ r.leaves := by
  simp [Finished.nextAlternative, Finished.leaves, leaves_whole]

theorem leaves_behind (done : Finished) (operand : Option Regex) :
    (done.behind operand).leaves = done.leaves ++ operand.toList.flatMap Regex.leaves := by
  cases operand with
  | none => simp [Finished.behind]
  | some l => simp [Finished.behind, leaves_nextFactor]

/-- **A token adds its symbol to the leaves**, behind all others. -/
theorem leaves_step {reading reading' : Reading} {position : Nat} {t : Token}
    (h : reading.step (position, t) = .ok reading') :
    reading'.leaves = reading.leaves ++ t.symbol?.toList := by
  obtain ⟨done, operand, outer⟩ := reading
  cases t with
  | symbol c =>
    rw [← Except.ok.inj h, atom_eq]
    simp [Reading.leaves, leaves_behind, Token.symbol?, Regex.leaves]
  | epsilon =>
    rw [← Except.ok.inj h, atom_eq]
    simp [Reading.leaves, leaves_behind, Token.symbol?, Regex.leaves]
  | opening =>
    rw [← Except.ok.inj h, openGroup_eq]
    simp [Reading.leaves, leaves_behind, Token.symbol?]
  | star =>
    cases operand with
    | none => cases h
    | some r =>
      rw [← Except.ok.inj h]
      simp [Reading.leaves, Token.symbol?, Regex.leaves]
  | union c =>
    cases operand with
    | none => cases h
    | some r =>
      rw [← Except.ok.inj h]
      simp [Reading.leaves, Token.symbol?, leaves_nextAlternative]
  | dot =>
    cases operand with
    | none => cases h
    | some r =>
      rw [← Except.ok.inj h]
      simp [Reading.leaves, Token.symbol?, leaves_nextFactor]
  | closing =>
    cases operand with
    | none => cases h
    | some r =>
      cases outer with
      | nil => cases h
      | cons group outer =>
        rw [← Except.ok.inj h]
        simp [Reading.leaves, Token.symbol?, leaves_whole]

theorem leaves_foldlM : ∀ {found : List (Nat × Token)} {reading reading' : Reading},
    found.foldlM Reading.step reading = .ok reading' →
      reading'.leaves = reading.leaves ++ found.flatMap fun t => t.2.symbol?.toList
  | [], reading, reading', h => by
    rw [← Except.ok.inj h]
    simp
  | (position, t) :: found, reading, reading', h => by
    rw [List.foldlM_cons] at h
    obtain ⟨between, hstep, h⟩ := bind_eq_ok h
    rw [leaves_foldlM h, leaves_step hstep, List.flatMap_cons, List.append_assoc]

theorem leaves_finish {reading : Reading} {length : Nat} (h : reading.finish length = .ok r) :
    r.leaves = reading.leaves := by
  obtain ⟨done, operand, outer⟩ := reading
  cases operand with
  | none => exact absurd h (by simp [finish])
  | some f =>
    cases outer with
    | nil =>
      rw [← Except.ok.inj h]
      simp [Reading.leaves, leaves_whole]
    | cons group outer => exact absurd h (by simp [finish])

/-- **The leaves of what is read are the symbols of the text, in order.** -/
theorem leaves_of_parseChars {cs : List Char} (h : parseChars cs = .ok r) :
    ∃ found, Token.scan 0 cs = .ok found ∧
      r.leaves = found.flatMap fun t => t.2.symbol?.toList := by
  obtain ⟨found, hscan, h⟩ := bind_eq_ok h
  refine ⟨found, hscan, ?_⟩
  split at h
  · exact absurd h (by simp)
  · obtain ⟨reading, hfold, h⟩ := bind_eq_ok h
    rw [leaves_finish h, leaves_foldlM hfold]
    rfl

/-- Only letters and digits other than `ε` are read as symbols. -/
theorem symbols_of_parseChars {cs : List Char} (h : parseChars cs = .ok r) :
    ∀ c ∈ r.leaves, Text.isAlphanumeric c = true ∧ c ≠ epsilonChar := by
  obtain ⟨found, hscan, hleaves⟩ := leaves_of_parseChars h
  intro c hc
  rw [hleaves, List.mem_flatMap] at hc
  obtain ⟨t, ht, hc⟩ := hc
  obtain ⟨hread, -⟩ := (Token.scan_eq_ok_iff _ 0).mp ⟨found, hscan, rfl⟩
  obtain ⟨-, hd⟩ := hread t.2 (List.mem_map_of_mem ht)
  exact Token.symbol_of_ofChar? hd c (Option.mem_toList.mp hc)

theorem isAlphanumeric_of_parse {text : String} (h : parse text = .ok r) :
    ∀ c ∈ r.leaves, Text.isAlphanumeric c = true :=
  fun c hc => (symbols_of_parseChars h c hc).1

end RegularLanguages.Regex
