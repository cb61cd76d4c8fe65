import Mathlib.Data.List.Chain
import RegularLanguages.Proofs.Regex.Prefixes
import RegularLanguages.Regex.Descent

/-!
# Recursive descent reads the same expressions

The reader of single tokens takes two operands next to each other for a concatenation, so a dot
between them changes nothing. Once every concatenation is written, the function of each rule of
the grammar moves the reader on from the head of the tokens to the tokens it leaves, with the
tree it gives as the operand held, and what may stand there ends the rule (`Follows`). So both
report the same fault or end with the same tree.

Results:
* `run_withDots`, `dotted_withDots`: the dots put in change nothing for the reader, and no
  operand is left right behind another one.
* `follows_expression` with one theorem for each other rule: what the descent reads.
* **`descend_eq_parse`**: both readers give the same answer on every text.
-/

namespace RegularLanguages.Regex

variable {reading : Reading} {length : Nat} {ts : List (Nat × Token)} {r s : Regex}
  {done done' : Finished} {outer : List (Nat × Finished)}

/-! ## Reading on to the end -/

namespace Reading

/-- Reads on to the end of a text of the given length. -/
def run (reading : Reading) (length : Nat) (ts : List (Nat × Token)) : Except RegexError Regex := do
  let reading ← ts.foldlM step reading
  reading.finish length

theorem run_cons (t : Nat × Token) :
    reading.run length (t :: ts) = reading.step t >>= fun next => next.run length ts := by
  rw [run, List.foldlM_cons, bind_assoc]
  rfl

theorem step_dot (hr : reading.operand = some r) (position : Nat) :
    reading.step (position, .dot) = .ok ⟨reading.done.nextFactor r, none, reading.outer⟩ := by
  obtain ⟨done, operand, outer⟩ := reading
  obtain rfl : operand = some r := hr
  rfl

/-- A dot in front of an operand changes nothing behind another one. -/
theorem run_nextFactor {u : Nat × Token} (hr : reading.operand = some r)
    (hu : u.2.startsOperand = true) :
    run ⟨reading.done.nextFactor r, none, reading.outer⟩ length (u :: ts) =
      reading.run length (u :: ts) := by
  obtain ⟨done, operand, outer⟩ := reading
  obtain rfl : operand = some r := hr
  obtain ⟨position, u⟩ := u
  cases u with
  | symbol c => rfl
  | epsilon => rfl
  | opening => rfl
  | _ => exact Bool.noConfusion hu

/-- **The dots that juxtaposition stands for change nothing.** -/
theorem run_withDots : reading.run length (Token.withDots ts) = reading.run length ts := by
  fun_induction Token.withDots ts generalizing reading with
  | case1 t u ts h ih =>
    obtain ⟨hends, hstarts⟩ := (Bool.and_eq_true _ _).mp h
    rw [run_cons, run_cons]
    cases hstep : reading.step t with
    | error f => rfl
    | ok next =>
      obtain ⟨r, hr⟩ := Option.isSome_iff_exists.mp ((isSome_operand_of_step hstep).trans hends)
      show next.run length ((u.1, .dot) :: Token.withDots (u :: ts)) = next.run length (u :: ts)
      rw [run_cons, step_dot hr, ← run_nextFactor hr hstarts]
      exact ih
  | case2 t u ts h ih =>
    rw [run_cons, run_cons]
    exact bind_congr fun next => ih
  | case3 ts h => rfl

end Reading

/-! ## No operand right behind another one -/

/-- No operand stands right behind another one. -/
def Dotted (ts : List (Nat × Token)) : Prop :=
  ts.IsChain fun t u => t.2.endsOperand = true → u.2.startsOperand = false

theorem head?_withDots (ts : List (Nat × Token)) : (Token.withDots ts).head? = ts.head? := by
  fun_cases Token.withDots ts <;> rfl

theorem dotted_withDots (ts : List (Nat × Token)) : Dotted (Token.withDots ts) := by
  fun_induction Token.withDots ts with
  | case1 t u ts h ih =>
    exact (ih.cons fun _ _ hdot => Bool.noConfusion hdot).cons_cons fun _ => rfl
  | case2 t u ts h ih =>
    refine ih.cons fun v hv hends => ?_
    rw [head?_withDots] at hv
    obtain rfl : u = v := Option.some.inj hv
    rw [hends, Bool.true_and, Bool.not_eq_true] at h
    exact h
  | case3 ts h =>
    match ts, h with
    | [], _ => exact .nil
    | [t], _ => exact .singleton t
    | t :: u :: ts, h => exact absurd rfl (h t u ts)

/-! ## What ends each rule -/

/-- The first token settles which of two is the case for it, if there is one. -/
theorem head_cases {p q : Nat × Token → Prop} (h : ∀ t ∈ ts.head?, p t ∨ q t) :
    (∃ t rest, ts = t :: rest ∧ p t) ∨ ∀ t ∈ ts.head?, q t := by
  cases ts with
  | nil => exact Or.inr fun t ht => by cases ht
  | cons t rest =>
    rcases h t rfl with hp | hq
    · exact Or.inl ⟨t, rest, rfl, hp⟩
    · exact Or.inr fun u hu => Option.some.inj hu ▸ hq

/-- A token that ends an expression. -/
def EndsExpression (t : Nat × Token) : Prop := t.2 = .closing

/-- A token that ends a term. -/
def EndsTerm (t : Nat × Token) : Prop := (∃ c, t.2 = .union c) ∨ EndsExpression t

/-- A token that ends a factor. -/
def EndsFactor (t : Nat × Token) : Prop := t.2 = .dot ∨ EndsTerm t

/-- A token that ends an atom. -/
def EndsAtom (t : Nat × Token) : Prop := t.2 = .star ∨ EndsFactor t

theorem endsAtom_of_startsOperand {t : Nat × Token} (h : t.2.startsOperand = false) :
    EndsAtom t := by
  obtain ⟨position, t⟩ := t
  cases t with
  | star => exact .inl rfl
  | dot => exact .inr (.inl rfl)
  | union c => exact .inr (.inr (.inl ⟨c, rfl⟩))
  | closing => exact .inr (.inr (.inr rfl))
  | _ => exact Bool.noConfusion h

/-- Behind an operand no other one starts. -/
theorem Dotted.endsAtom {t : Nat × Token} (h : Dotted (t :: ts)) (ht : t.2.endsOperand = true) :
    ∀ u ∈ ts.head?, EndsAtom u :=
  fun _ hu => endsAtom_of_startsOperand (h.rel_head? hu ht)

/-- Where a term ends, only the group that has been read counts. -/
theorem run_eq_of_whole (h : done.whole r = done'.whole s) (hts : ∀ t ∈ ts.head?, EndsTerm t) :
    Reading.run ⟨done, some r, outer⟩ length ts = Reading.run ⟨done', some s, outer⟩ length ts := by
  rcases head_cases hts with ⟨⟨position, _⟩, ts, rfl, c, rfl⟩ | hends
  · show Reading.run ⟨⟨some (done.whole r), none⟩, none, outer⟩ length ts = _
    rw [h]
    rfl
  · match ts, outer, hends with
    | [], [], _ => exact congrArg Except.ok h
    | [], _ :: _, _ => rfl
    | (position, t) :: ts, outer, hends =>
      obtain rfl : t = .closing := hends _ rfl
      cases outer with
      | nil => rfl
      | cons group outer =>
        show Reading.run ⟨group.2, some (done.whole r), outer⟩ length ts = _
        rw [h]
        rfl

/-- Where a factor ends, only the term that has been read counts, with the terms before it. -/
theorem run_eq_of_term (halternatives : done.alternatives = done'.alternatives)
    (h : done.term r = done'.term s) (hts : ∀ t ∈ ts.head?, EndsFactor t) :
    Reading.run ⟨done, some r, outer⟩ length ts = Reading.run ⟨done', some s, outer⟩ length ts := by
  rcases head_cases hts with ⟨⟨position, _⟩, ts, rfl, rfl⟩ | hends
  · show Reading.run ⟨⟨done.alternatives, some (done.term r)⟩, none, outer⟩ length ts = _
    rw [h, halternatives]
    rfl
  · have hwhole : done.whole r = done'.whole s := by
      rw [Finished.whole, Finished.whole, halternatives, h]
    exact run_eq_of_whole hwhole hends

/-! ## One rule after the other -/

namespace Descent

/-- What a rule reads moves the reader on from `before` to `after`, and what it leaves starts
with a token that ends the rule. What it reports the reader reports too. -/
def Follows {n : Nat} (length : Nat) (before : Reading) (ts : List (Nat × Token))
    (after : Regex → Reading) (ends : Nat × Token → Prop) : Except RegexError (Read n) → Prop
  | .error f => before.run length ts = .error f
  | .ok out =>
    before.run length ts = (after out.tree).run length out.rest ∧
      Dotted out.rest ∧ ∀ t ∈ out.rest.head?, ends t

variable {n m : Nat} {before : Reading} {after between : Regex → Reading}
  {ends ends' : Nat × Token → Prop} {first : Except RegexError (Read n)}

theorem Follows.of_run_eq {b : Reading} {l : List (Nat × Token)}
    (h : Follows length b l after ends first) (hrun : before.run length ts = b.run length l) :
    Follows length before ts after ends first := by
  cases first with
  | error f => exact hrun.trans h
  | ok out => exact ⟨hrun.trans h.1, h.2⟩

/-- A rule goes on where another one has ended. -/
theorem Follows.bind {next : Read n → Except RegexError (Read m)}
    (h : Follows length before ts between ends first)
    (hnext : ∀ r rest hrest, Dotted rest → (∀ t ∈ rest.head?, ends t) →
      Follows length (between r) rest after ends' (next ⟨r, rest, hrest⟩)) :
    Follows length before ts after ends' (first >>= next) := by
  cases first with
  | error f => exact h
  | ok out =>
    obtain ⟨hrun, hdotted, hends⟩ := h
    exact (hnext out.tree out.rest out.shorter hdotted hends).of_run_eq hrun

theorem Follows.weaken (h : Follows length before ts after ends first) (hle : n ≤ m) :
    Follows length before ts after ends (do
      let out ← first
      return out.weaken hle) := by
  cases first with
  | error f => exact h
  | ok out => exact h

/-! ## What each rule reads -/

theorem stars_of_endsFactor (h : ∀ t ∈ ts.head?, EndsFactor t) :
    stars r ts = ⟨r, ts, Nat.lt_succ_self _⟩ := by
  cases ts with
  | nil => rfl
  | cons t ts =>
    obtain ⟨position, t⟩ := t
    obtain rfl | ⟨c, rfl⟩ | rfl : t = .dot ∨ (∃ c, t = .union c) ∨ t = .closing := h _ rfl
    · rfl
    · rfl
    · rfl

theorem factors_of_endsTerm (h : ∀ t ∈ ts.head?, EndsTerm t) :
    factors length r ts = .ok ⟨r, ts, Nat.lt_succ_self _⟩ := by
  unfold factors
  cases ts with
  | nil => rfl
  | cons t ts =>
    obtain ⟨position, t⟩ := t
    obtain ⟨c, rfl⟩ | rfl : (∃ c, t = .union c) ∨ t = .closing := h _ rfl
    · rfl
    · rfl

theorem alternatives_of_endsExpression (h : ∀ t ∈ ts.head?, EndsExpression t) :
    alternatives length r ts = .ok ⟨r, ts, Nat.lt_succ_self _⟩ := by
  unfold alternatives
  cases ts with
  | nil => rfl
  | cons t ts =>
    obtain ⟨position, t⟩ := t
    obtain rfl : t = .closing := h _ rfl
    rfl

/-- Stars are read as long as there are any. -/
theorem follows_stars (hdotted : Dotted ts) (hends : ∀ t ∈ ts.head?, EndsAtom t) :
    Follows length ⟨done, some r, outer⟩ ts (fun r => ⟨done, some r, outer⟩) EndsFactor
      (.ok (stars r ts)) := by
  induction ts generalizing r with
  | nil => exact ⟨rfl, hdotted, fun t ht => by cases ht⟩
  | cons t ts ih =>
    rcases head_cases hends with ⟨_, _, h, hstar⟩ | hends
    · obtain ⟨position, t⟩ := t
      obtain ⟨rfl, rfl⟩ := List.cons.inj h
      obtain rfl : t = .star := hstar
      exact (ih hdotted.tail (hdotted.endsAtom rfl)).weaken (Nat.le_succ _)
    · rw [stars_of_endsFactor hends]
      exact ⟨rfl, hdotted, hends⟩

-- As the functions do, the theorems of one family call each other on fewer tokens, or on the same
-- tokens for a rule further down in the grammar.
mutual

/-- An expression is read as a whole group. -/
theorem follows_expression (ts : List (Nat × Token)) (outer : List (Nat × Finished))
    (hdotted : Dotted ts) :
    Follows length ⟨.start, none, outer⟩ ts (fun r => ⟨.start, some r, outer⟩) EndsExpression
      (expression length ts) := by
  rw [expression]
  refine (follows_term ts .start outer rfl hdotted).bind fun r rest hrest hdotted hends => ?_
  exact (follows_alternatives rest r outer hdotted hends).weaken hrest
termination_by (ts.length, 4)

/-- Further terms are read into the union of those before. -/
theorem follows_alternatives (ts : List (Nat × Token)) (r : Regex) (outer : List (Nat × Finished))
    (hdotted : Dotted ts) (hends : ∀ t ∈ ts.head?, EndsTerm t) :
    Follows length ⟨.start, some r, outer⟩ ts (fun r => ⟨.start, some r, outer⟩) EndsExpression
      (alternatives length r ts) := by
  match ts, hdotted, head_cases hends with
  | (position, .union c) :: ts, hdotted, .inl ⟨_, _, rfl, _, rfl⟩ =>
    rw [alternatives]
    have hnext := follows_term ts ⟨some r, none⟩ outer rfl hdotted.tail
    refine Follows.bind (hnext.of_run_eq rfl) fun s rest hrest hdotted hends => ?_
    have hlater := follows_alternatives rest (union r s) outer hdotted hends
    exact Follows.of_run_eq (hlater.weaken _) (run_eq_of_whole rfl hends)
  | ts, hdotted, .inr hends =>
    rw [alternatives_of_endsExpression hends]
    exact ⟨rfl, hdotted, hends⟩
termination_by (ts.length, 0)

/-- A term is read behind the terms before it. -/
theorem follows_term (ts : List (Nat × Token)) (done : Finished) (outer : List (Nat × Finished))
    (hdone : done.factors = none) (hdotted : Dotted ts) :
    Follows length ⟨done, none, outer⟩ ts (fun r => ⟨done, some r, outer⟩) EndsTerm
      (term length ts) := by
  rw [term]
  refine (follows_factor ts done outer hdotted).bind fun r rest hrest hdotted hends => ?_
  exact (follows_factors rest r done outer hdone hdotted hends).weaken hrest
termination_by (ts.length, 3)

/-- Further factors are read into the concatenation of those before. -/
theorem follows_factors (ts : List (Nat × Token)) (r : Regex) (done : Finished)
    (outer : List (Nat × Finished)) (hdone : done.factors = none) (hdotted : Dotted ts)
    (hends : ∀ t ∈ ts.head?, EndsFactor t) :
    Follows length ⟨done, some r, outer⟩ ts (fun r => ⟨done, some r, outer⟩) EndsTerm
      (factors length r ts) := by
  match ts, hdotted, head_cases hends with
  | (position, .dot) :: ts, hdotted, .inl ⟨_, _, rfl, rfl⟩ =>
    rw [factors]
    have hnext := follows_factor ts (done.nextFactor r) outer hdotted.tail
    refine Follows.bind (hnext.of_run_eq rfl) fun s rest hrest hdotted hends => ?_
    have hlater := follows_factors rest (concat r s) done outer hdone hdotted hends
    have hterm : (done.nextFactor r).term s = done.term (concat r s) := by
      simp only [Finished.nextFactor, Finished.term, hdone]
    exact Follows.of_run_eq (hlater.weaken _) (run_eq_of_term rfl hterm hends)
  | ts, hdotted, .inr hends =>
    rw [factors_of_endsTerm hends]
    exact ⟨rfl, hdotted, hends⟩
termination_by (ts.length, 0)

/-- A factor is read as the operand at hand. -/
theorem follows_factor (ts : List (Nat × Token)) (done : Finished) (outer : List (Nat × Finished))
    (hdotted : Dotted ts) :
    Follows length ⟨done, none, outer⟩ ts (fun r => ⟨done, some r, outer⟩) EndsFactor
      (factor length ts) := by
  rw [factor]
  refine (follows_atom ts done outer hdotted).bind fun r rest hrest hdotted hends => ?_
  exact (follows_stars hdotted hends).weaken hrest
termination_by (ts.length, 2)

/-- An atom is read as the operand at hand, a group among them as a whole. -/
theorem follows_atom (ts : List (Nat × Token)) (done : Finished) (outer : List (Nat × Finished))
    (hdotted : Dotted ts) :
    Follows length ⟨done, none, outer⟩ ts (fun r => ⟨done, some r, outer⟩) EndsAtom
      (atom length ts) := by
  unfold atom
  match ts, hdotted with
  | [], _ => rfl
  | (position, t) :: ts, hdotted =>
    cases t with
    | symbol c => exact ⟨rfl, hdotted.tail, hdotted.endsAtom rfl⟩
    | epsilon => exact ⟨rfl, hdotted.tail, hdotted.endsAtom rfl⟩
    | opening =>
      have hinner := follows_expression ts ((position, done) :: outer) hdotted.tail
      refine Follows.bind (hinner.of_run_eq rfl) fun r rest hrest hdotted hends => ?_
      cases rest with
      | nil => rfl
      | cons t rest =>
        obtain ⟨behind, t⟩ := t
        obtain rfl : t = .closing := hends _ rfl
        exact ⟨rfl, hdotted.tail, hdotted.endsAtom rfl⟩
    | _ => rfl
termination_by (ts.length, 1)

end

/-- **The descent ends as the reader does.** -/
theorem whole_eq_run (hdotted : Dotted ts) : whole length ts = Reading.start.run length ts := by
  have hfollows := @follows_expression length ts [] hdotted
  rw [whole]
  cases hresult : expression length ts with
  | error f =>
    rw [hresult] at hfollows
    exact hfollows.symm
  | ok out =>
    rw [hresult] at hfollows
    obtain ⟨hrun, -, hends⟩ := hfollows
    obtain ⟨r, rest, hrest⟩ := out
    refine Eq.trans ?_ hrun.symm
    cases rest with
    | nil => rfl
    | cons t rest =>
      obtain ⟨position, t⟩ := t
      obtain rfl : t = .closing := hends _ rfl
      rfl

end Descent

/-! ## Both readings of a text -/

/-- **Recursive descent over the tokens with every concatenation written** gives what `parse`
gives: the same tree or the same fault. -/
theorem descend_eq_parse (text : String) : descend text = parse text := by
  rw [descend, parse, parseChars]
  refine bind_congr fun tokens => ?_
  split
  · rfl
  · rw [Descent.whole_eq_run (dotted_withDots tokens), Reading.run_withDots, ← String.length_toList]
    rfl

end RegularLanguages.Regex
