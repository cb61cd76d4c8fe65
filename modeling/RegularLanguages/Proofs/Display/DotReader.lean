import Mathlib.Data.List.Basic
import RegularLanguages.Display.Dot
import RegularLanguages.Display.DotReader

/-!
# Reading a drawing line by line

The reader goes through a text from left to right and forgets what is complete. So a text that is
read up to a place between two tokens can be read on its own (`Yields.append`), and so can a
statement.

A name is read back from its quoted form, whatever its characters are. The labels of an edge are
put in quotes as they are: they are read back unless a quote is among them, which ends the string,
or a backslash is the last of them, which hides the quote behind it.

Results:
* `yields_quoted`: names in quotes.
* **`run_labels`**, `tokens_labels`: labels that are read back, and those that are not.
* `exists_attributes`: a statement keeps the attributes that have been read.
* `parse_node`, `parse_edge`, `parse_edge_of_not_readable`, `parse_initial`: the lines of a drawing.
-/

namespace RegularLanguages.Dot

variable {m m' : Mode} {cs ds rest : List Char} {ts us : List Token}

/-! ## Tokens -/

theorem run_append : ∀ (m : Mode) (cs ds : List Char),
    run m (cs ++ ds) = (run m cs).bind fun r => (run r.2 ds).map fun u => (r.1 ++ u.1, u.2)
  | m, [], ds => by simp [run]
  | m, c :: cs, ds => by
    rw [List.cons_append, run, run]
    cases step m c with
    | none => rfl
    | some r =>
      obtain ⟨ts, m'⟩ := r
      simp only [run_append m' cs ds]
      cases run m' cs with
      | none => rfl
      | some u => simp [Function.comp_def]

theorem tokens_append (h : run m cs = some (ts, m')) (ds : List Char) :
    tokens m (cs ++ ds) = (tokens m' ds).map (ts ++ ·) := by
  rw [tokens, run_append, h, tokens, Option.bind_some]
  cases run m' ds with
  | none => rfl
  | some u =>
    obtain ⟨us, m''⟩ := u
    cases m'' <;> simp [finish]

theorem tokens_cons {c : Char} (h : step m c = some (ts, m')) (cs : List Char) :
    tokens m (c :: cs) = (tokens m' cs).map (ts ++ ·) := by
  have hrun : run m [c] = some (ts, m') := by simp [run, h]
  exact tokens_append hrun cs

/-- The characters are read as the tokens, up to a place between two tokens. -/
def Yields (cs : List Char) (ts : List Token) : Prop := run .between cs = some (ts, .between)

theorem Yields.append (h : Yields cs ts) (hd : Yields ds us) : Yields (cs ++ ds) (ts ++ us) := by
  rw [Yields] at *
  rw [run_append, h, Option.bind_some, hd]
  rfl

/-! ## Names -/

/-- A name with backslashes and quotes escaped, within a string. -/
theorem run_escaped : ∀ (name read : List Char),
    run (.string read) (name.flatMap fun c => if c = '\\' ∨ c = '"' then ['\\', c] else [c]) =
      some ([], .string (name.reverse ++ read))
  | [], read => rfl
  | c :: name, read => by
    have hc : run (.string read) (if c = '\\' ∨ c = '"' then ['\\', c] else [c]) =
        some ([], .string (c :: read)) := by
      by_cases h : c = '\\' ∨ c = '"'
      · rw [if_pos h]
        simp [run, step, h.symm]
      · rw [if_neg h]
        obtain ⟨hb, hq⟩ := not_or.mp h
        simp [run, step, hb, hq]
    rw [List.flatMap_cons, run_append, hc, Option.bind_some, run_escaped name (c :: read)]
    simp

/-- **A name is read back** from its quoted form. -/
theorem yields_quoted (name : String) : Yields (quoted name).toList [.name name] := by
  have hquote : run .between ['"'] = some ([], .string []) := rfl
  have hclose : run (.string (name.toList.reverse ++ [])) ['"'] =
      some ([.name name], .between) := by
    simp [run, step]
  have htext : (quoted name).toList = ['"'] ++ (name.toList.flatMap fun c =>
      if c = '\\' ∨ c = '"' then ['\\', c] else [c]) ++ ['"'] := by
    simp [quoted]
  rw [Yields, htext, List.append_assoc, run_append, hquote, Option.bind_some, run_append,
    run_escaped, Option.bind_some, hclose]
  rfl

/-- Within a string the next token is a name that begins with what has been read. -/
theorem tokens_string : ∀ (cs read : List Char) (ts : List Token),
    tokens (.string read) cs = some ts ∨ tokens (.escape read) cs = some ts →
      ∃ more us, ts = .name (String.ofList (read.reverse ++ more)) :: us
  | [], read, ts, h => by simp [tokens, run, finish] at h
  | c :: cs, read, ts, h => by
    -- Unless the string ends here, what has been read grows.
    have grows (added : List Char)
        (h : tokens (.string (added.reverse ++ read)) cs = some ts) :
        ∃ more us, ts = .name (String.ofList (read.reverse ++ more)) :: us := by
      obtain ⟨more, us, rfl⟩ := tokens_string cs _ ts (Or.inl h)
      exact ⟨added ++ more, us, by simp⟩
    rcases h with h | h
    · by_cases hq : c = '"'
      · have hstep : step (.string read) c =
            some ([.name (String.ofList read.reverse)], .between) := by simp [step, hq]
        rw [tokens_cons hstep] at h
        obtain ⟨us, -, rfl⟩ := Option.map_eq_some_iff.mp h
        exact ⟨[], us, by simp⟩
      · by_cases hb : c = '\\'
        · have hstep : step (.string read) c = some ([], .escape read) := by simp [step, hb]
          rw [tokens_cons hstep] at h
          exact tokens_string cs read ts (Or.inr (by simpa using h))
        · have hstep : step (.string read) c = some ([], .string (c :: read)) := by
            simp [step, hq, hb]
          rw [tokens_cons hstep] at h
          exact grows [c] (by simpa using h)
    · by_cases hs : c = '"' ∨ c = '\\'
      · have hstep : step (.escape read) c = some ([], .string (c :: read)) := by simp [step, hs]
        rw [tokens_cons hstep] at h
        exact grows [c] (by simpa using h)
      · have hstep : step (.escape read) c = some ([], .string (c :: '\\' :: read)) := by
          simp [step, hs]
        rw [tokens_cons hstep] at h
        exact grows ['\\', c] (by simpa using h)

/-! ## Labels -/

/-- Labels as they are listed at an edge. -/
def labelText (labels : List Label) : String := ", ".intercalate (labels.map Label.toText)

/-- Labels that are read back from a string: no quote ends it early, and no backslash hides the
quote at its end. -/
def Readable (labels : List Label) : Prop :=
  .symbol '"' ∉ labels ∧ labels.getLast? ≠ some (.symbol '\\')

theorem labelText_singleton (a : Label) : (labelText [a]).toList = [a.toChar] := by
  simp [labelText, Label.toText]

theorem labelText_cons_cons (a b : Label) (labels : List Label) :
    (labelText (a :: b :: labels)).toList =
      a.toChar :: ',' :: ' ' :: (labelText (b :: labels)).toList := by
  simp [labelText, Label.toText, List.intercalate]

theorem readable_cons_cons {a b : Label} {labels : List Label} :
    Readable (a :: b :: labels) ↔ a ≠ .symbol '"' ∧ Readable (b :: labels) := by
  simp [Readable, and_assoc, eq_comm]

theorem toChar_eq_iff {a : Label} {c : Char} (hc : c ≠ epsilonChar) :
    a.toChar = c ↔ a = .symbol c := by
  cases a <;> simp [Label.toChar, hc.symm]

/-- A label with the comma behind it, within a string. Also a backslash stands for itself. -/
theorem run_label {a : Label} (ha : a ≠ .symbol '"') (read : List Char) :
    run (.string read) [a.toChar, ',', ' '] =
      some ([], .string (' ' :: ',' :: a.toChar :: read)) := by
  have hq : a.toChar ≠ '"' := fun h => ha ((toChar_eq_iff (by decide)).mp h)
  by_cases hb : a.toChar = '\\'
  · simp [run, step, hb]
  · simp [run, step, hb, hq]

/-- **Readable labels are read back**, up to the quote behind them. -/
theorem run_labels : ∀ (labels : List Label) (read : List Char), Readable labels →
    run (.string read) ((labelText labels).toList ++ ['"']) =
      some ([.name (String.ofList (read.reverse ++ (labelText labels).toList))], .between)
  | [], read, _ => by simp [labelText, run, step]
  | [a], read, h => by
    have hq : a.toChar ≠ '"' := fun he => h.1 (by simp [(toChar_eq_iff (by decide)).mp he])
    have hb : a.toChar ≠ '\\' := fun he => h.2 (by simp [(toChar_eq_iff (by decide)).mp he])
    simp [labelText_singleton, run, step, hq, hb]
  | a :: b :: labels, read, h => by
    obtain ⟨ha, h⟩ := readable_cons_cons.mp h
    have hsplit : (labelText (a :: b :: labels)).toList ++ ['"'] =
        [a.toChar, ',', ' '] ++ ((labelText (b :: labels)).toList ++ ['"']) := by
      rw [labelText_cons_cons]
      rfl
    rw [hsplit, run_append, run_label ha, Option.bind_some, run_labels (b :: labels) _ h]
    simp [labelText_cons_cons]

/-- A quote that comes first ends the string at once. -/
theorem tokens_labels_of_quote {labels : List Label} {read : List Char}
    (h : tokens (.string read) ((labelText (.symbol '"' :: labels)).toList ++ rest) = some ts) :
    ∃ x us, ts = .name x :: us ∧
      x ≠ String.ofList (read.reverse ++ (labelText (.symbol '"' :: labels)).toList) := by
  obtain ⟨more, hmore⟩ : ∃ more, (labelText (.symbol '"' :: labels)).toList = '"' :: more := by
    cases labels with
    | nil => exact ⟨_, labelText_singleton _⟩
    | cons b labels => exact ⟨_, labelText_cons_cons _ _ _⟩
  have hstep : step (.string read) '"' =
      some ([.name (String.ofList read.reverse)], .between) := by simp [step]
  rw [hmore] at h ⊢
  rw [List.cons_append, tokens_cons hstep] at h
  obtain ⟨us, -, rfl⟩ := Option.map_eq_some_iff.mp h
  exact ⟨_, us, rfl, fun he => by simpa using String.ofList_injective he⟩

/-- **Other labels are misread**, whatever stands behind them. -/
theorem tokens_labels : ∀ (labels : List Label) (read rest : List Char) (ts : List Token),
    ¬ Readable labels →
    tokens (.string read) ((labelText labels).toList ++ '"' :: rest) = some ts →
      ∃ x us, ts = .name x :: us ∧ x ≠ String.ofList (read.reverse ++ (labelText labels).toList)
  | [], read, rest, ts, hr, _ => absurd (by simp [Readable]) hr
  | [a], read, rest, ts, hr, h => by
    by_cases ha : a = .symbol '"'
    · subst ha
      exact tokens_labels_of_quote h
    · -- The backslash makes the quote part of the string.
      obtain rfl : a = .symbol '\\' := by
        by_contra hb
        exact hr ⟨by simpa using Ne.symm ha, by simpa using hb⟩
      have hrun : run (.string read) ['\\', '"'] = some ([], .string ('"' :: read)) := by
        simp [run, step]
      have hsplit : [(Label.symbol '\\').toChar] ++ '"' :: rest = ['\\', '"'] ++ rest := rfl
      rw [labelText_singleton, hsplit, tokens_append hrun] at h
      obtain ⟨us, hus, rfl⟩ := Option.map_eq_some_iff.mp h
      obtain ⟨more, us, rfl⟩ := tokens_string rest _ us (Or.inl hus)
      refine ⟨_, us, rfl, fun he => ?_⟩
      simpa [labelText_singleton, Label.toChar] using String.ofList_injective he
  | a :: b :: labels, read, rest, ts, hr, h => by
    by_cases ha : a = .symbol '"'
    · subst ha
      exact tokens_labels_of_quote h
    · have hr : ¬ Readable (b :: labels) := fun h => hr (readable_cons_cons.mpr ⟨ha, h⟩)
      have hsplit : (labelText (a :: b :: labels)).toList ++ '"' :: rest =
          [a.toChar, ',', ' '] ++ ((labelText (b :: labels)).toList ++ '"' :: rest) := by
        rw [labelText_cons_cons]
        rfl
      rw [hsplit, tokens_append (run_label ha read)] at h
      obtain ⟨us, hus, rfl⟩ := Option.map_eq_some_iff.mp h
      obtain ⟨x, us, rfl, hx⟩ := tokens_labels (b :: labels) _ rest us hr hus
      exact ⟨x, us, rfl, by simpa [labelText_cons_cons] using hx⟩

/-! ## Statements -/

/-- A statement keeps the attributes that have been read. -/
theorem exists_attributes {ss : List Statement} {p q : String} {as : List Attribute}
    (h : statements (some (.edge p q as)) ts = some ss) :
    ∃ more rest, ss = .edge p q (as ++ more) :: rest := by
  generalize hs : some (Statement.edge p q as) = s at h
  fun_induction statements s ts generalizing as with
  -- the bracket closes
  | case8 s ts =>
    cases hs
    obtain ⟨ss, -, rfl⟩ := Option.map_eq_some_iff.mp h
    exact ⟨[], ss, by simp⟩
  -- one attribute more, with a comma, a semicolon or no sign behind it
  | case9 s k v ts ih | case10 s k v ts ih | case11 s k v ts _ _ ih =>
    cases hs
    obtain ⟨more, rest, rfl⟩ := ih rfl h
    exact ⟨(k, v) :: more, rest, by simp⟩
  | _ => simp_all

/-- An attribute is read whatever stands behind it. -/
theorem exists_statements_attribute (s : Statement) (k v : String) (ts : List Token) :
    ∃ us, statements (some s) (.name k :: .equals :: .name v :: ts) =
      statements (some (s.adding k v)) us := by
  cases ts with
  | nil => exact ⟨[], rfl⟩
  | cons t ts =>
    cases t with
    | comma | semicolon => exact ⟨ts, rfl⟩
    | _ => exact ⟨_ :: ts, rfl⟩

/-- An edge without attributes, if no bracket opens behind it. -/
theorem statements_edge {p q : String} (h : ∀ us, ts ≠ .openBracket :: us) :
    statements none (.name p :: .arrow :: .name q :: ts) =
      (statements none ts).map (.edge p q [] :: ·) := by
  cases ts with
  | nil => rfl
  | cons t ts =>
    cases t with
    | openBracket => exact absurd rfl (h ts)
    | _ => rfl

/-! ## The lines of a drawing -/

/-- The statements of a graph from some place between them on. -/
def parse (text : List Char) : Option (List Statement) :=
  (tokens .between text).bind (statements none)

theorem parse_append (h : Yields cs ts) (ds : List Char) :
    parse (cs ++ ds) = (tokens .between ds).bind fun us => statements none (ts ++ us) := by
  rw [parse, tokens_append h, Option.bind_map]
  rfl

/-- A line that is a statement of its own. -/
theorem parse_line {s : Statement} (h : Yields cs ts)
    (hs : ∀ us, statements none (ts ++ us) = (statements none us).map (s :: ·)) (ds : List Char) :
    parse (cs ++ ds) = (parse ds).map (s :: ·) := by
  rw [parse_append h, parse, Option.map_bind]
  exact congrArg _ (funext hs)

/-- The statement that draws a state. -/
def nodeStatement (A : Automaton) (q : State) : Statement :=
  .node q.name [("shape", if A.isFinal q then "doublecircle" else "circle")]

theorem parse_node (A : Automaton) (q : State) (rest : List Char) :
    parse ((node A q).toList ++ '\n' :: rest) = (parse rest).map (nodeStatement A q :: ·) := by
  have hshape : ∀ b : Bool,
      Yields (" [shape=" ++ (if b then "doublecircle" else "circle") ++ "]\n").toList
        [.openBracket, .name "shape", .equals, .name (if b then "doublecircle" else "circle"),
          .closeBracket]
    | true => rfl
    | false => rfl
  have hsplit : (node A q).toList ++ '\n' :: rest = ((quoted q.name).toList ++
      (" [shape=" ++ (if A.isFinal q then "doublecircle" else "circle") ++ "]\n").toList) ++
        rest := by
    simp [node]
  rw [hsplit]
  exact parse_line ((yields_quoted _).append (hshape _)) (fun us => rfl) rest

/-- The statement that draws the transitions from one state to another. -/
def edgeStatement (p q : State) (labels : List Label) : Statement :=
  .edge p.name q.name [("label", labelText labels)]

/-- The line that draws transitions up to the labels, which are within a string. -/
def edgeStart (p q : State) : List Char :=
  (quoted p.name).toList ++ " -> ".toList ++ (quoted q.name).toList ++ " [label=\"".toList

theorem run_edgeStart (p q : State) : run .between (edgeStart p q) =
    some ([.name p.name, .arrow, .name q.name, .openBracket, .name "label", .equals],
      .string []) := by
  have harrow : Yields " -> ".toList [.arrow] := rfl
  have hends := ((yields_quoted p.name).append harrow).append (yields_quoted q.name)
  have hlabel : run .between " [label=\"".toList =
      some ([.openBracket, .name "label", .equals], .string []) := rfl
  rw [edgeStart, run_append, hends, Option.bind_some, hlabel]
  rfl

theorem edge_append (p q : State) (labels : List Label) (rest : List Char) :
    (edge p q labels).toList ++ '\n' :: rest =
      edgeStart p q ++ ((labelText labels).toList ++ '"' :: ("]\n".toList ++ rest)) := by
  simp [edge, edgeStart, labelText]

/-- Transitions whose labels are read back. -/
theorem parse_edge {labels : List Label} (h : Readable labels) (p q : State) (rest : List Char) :
    parse ((edge p q labels).toList ++ '\n' :: rest) =
      (parse rest).map (edgeStatement p q labels :: ·) := by
  have hlabels : Yields (edgeStart p q ++ ((labelText labels).toList ++ ['"']))
      [.name p.name, .arrow, .name q.name, .openBracket, .name "label", .equals,
        .name (labelText labels)] := by
    rw [Yields, run_append, run_edgeStart, Option.bind_some, run_labels labels [] h]
    simp
  have hclose : Yields "]\n".toList [.closeBracket] := rfl
  have hsplit : (edge p q labels).toList ++ '\n' :: rest =
      edgeStart p q ++ ((labelText labels).toList ++ ['"']) ++ "]\n".toList ++ rest := by
    rw [edge_append]
    simp
  rw [hsplit]
  exact parse_line (hlabels.append hclose) (fun us => rfl) rest

/-- Transitions with other labels are drawn with a wrong one, if the text is read at all. -/
theorem parse_edge_of_not_readable {labels : List Label} {ss : List Statement}
    (h : ¬ Readable labels) {p q : State}
    (hss : parse ((edge p q labels).toList ++ '\n' :: rest) = some ss) :
    ∃ x more us, ss = .edge p.name q.name (("label", x) :: more) :: us ∧ x ≠ labelText labels := by
  rw [edge_append, parse, tokens_append (run_edgeStart p q), Option.bind_map] at hss
  obtain ⟨ts, hts, hss⟩ := Option.bind_eq_some_iff.mp hss
  obtain ⟨x, us, rfl, hx⟩ := tokens_labels labels [] _ ts h hts
  obtain ⟨us', hus'⟩ := exists_statements_attribute (.edge p.name q.name []) "label" x us
  obtain ⟨more, rest, rfl⟩ := exists_attributes (hus'.symm.trans hss)
  exact ⟨x, more, rest, rfl, by simpa using hx⟩

/-- The line that draws where an automaton starts, with the next line or the end behind it. -/
theorem parse_initial (q : State) {rest : List Char}
    (hrest : ∀ us, tokens .between rest ≠ some (.openBracket :: us)) :
    parse (("init -> " ++ quoted q.name).toList ++ '\n' :: rest) =
      (parse rest).map (.edge "init" q.name [] :: ·) := by
  have hinit : Yields "init -> ".toList [.name "init", .arrow] := rfl
  have hline : Yields "\n".toList [] := rfl
  have hsplit : ("init -> " ++ quoted q.name).toList ++ '\n' :: rest =
      ("init -> ".toList ++ (quoted q.name).toList ++ "\n".toList) ++ rest := by
    simp
  rw [hsplit, parse_append ((hinit.append (yields_quoted _)).append hline), parse]
  cases h : tokens .between rest with
  | none => rfl
  | some ts => exact statements_edge fun us he => hrest us (h.trans (congrArg some he))

end RegularLanguages.Dot
