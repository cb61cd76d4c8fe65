import RegularLanguages.Proofs.Equation.Lines
import RegularLanguages.Proofs.Equation.Rejoined

/-!
# A displayed system, read again

A system is displayed one equation per line, the coefficients with their variables first and then
the constant part, whose union terms stand next to each other. Reading the text finds the same
terms, unless a coefficient or the constant part has a symbol `x` in front of digits: its text
looks like a variable there.

Each part of the text is read back under the same condition, first the terms, then the lines, and
the converse goes the same way: what has been read back shows no variable.

Results:
* `splits_toText`: a displayed right hand side is split into its terms.
* `ShowsNoVariable.parseTerms`, `showsNoVariable_of_parseTerms`: when its terms are read back.
* `parseLine_lineChars`: the line of an equation is read by its terms.
* **`parse_toText_iff_showsNoVariable`**: exactly the systems that show no variable in the wrong
  place are read back, with the same solutions.
-/

namespace RegularLanguages

open EquationSystem

variable {line : Nat} {uses uses' : List (Nat × Variable)}

namespace LinearForm

variable {form : LinearForm} {r : Regex}

/-- No coefficient and no constant part has a text in which an `x` stands in front of the digits
of a variable. -/
structure ShowsNoVariable (form : LinearForm) : Prop where
  coefficient : ∀ x c, (x, c) ∈ form.coefficients → NoVariable c.chars
  constant : ∀ c, form.constant = some c → NoVariable c.chars

/-! ## The text of a right hand side -/

/-- The characters of a term that is shown. -/
def shown : Option Variable × Regex → List Char
  | (some v, c) => termChars v c
  | (none, r) => r.chars

/-- The texts that a right hand side is joined from. -/
def texts (form : LinearForm) : List (List Char) :=
  form.coefficients.map (fun t => termChars t.1 t.2) ++ form.constant.toList.map Regex.chars

theorem texts_ne_nil (h : form ≠ zero) : form.texts ≠ [] := by
  intro htexts
  obtain ⟨hcoefficients, hconstant⟩ := List.append_eq_nil_iff.mp htexts
  refine h ?_
  obtain ⟨coefficients, constant⟩ := form
  rw [List.map_eq_nil_iff] at hcoefficients hconstant
  cases constant with
  | none => exact congrArg (LinearForm.mk · none) hcoefficients
  | some c => exact nomatch hconstant

theorem toList_toText (h : form ≠ zero) :
    form.toText.toList = [' ', '+', ' '].intercalate form.texts := by
  have hmap : (form.coefficients.map (fun t => termText t.1 t.2) ++
      form.constant.toList.map Regex.toText).map String.toList = form.texts := by
    simp only [texts, List.map_append, List.map_map, Function.comp_def, toList_termText,
      Regex.toText, String.toList_ofList]
  have hne : (form.coefficients.map (fun t => termText t.1 t.2) ++
      form.constant.toList.map Regex.toText).isEmpty = false := by
    rw [List.isEmpty_eq_false_iff]
    intro hnil
    rw [hnil] at hmap
    exact texts_ne_nil h hmap.symm
  have htext : form.toText = " + ".intercalate (form.coefficients.map (fun t => termText t.1 t.2) ++
      form.constant.toList.map Regex.toText) := if_neg (by rw [hne]; exact Bool.false_ne_true)
  rw [htext, String.toList_intercalate, hmap]
  rfl

theorem map_shown_terms (form : LinearForm) : form.terms.map shown =
    form.coefficients.map (fun t => termChars t.1 t.2) ++
      form.constant.toList.flatMap fun c => c.unionTerms.map Regex.chars := by
  simp only [terms, List.map_append, List.map_map, List.map_flatMap]
  rfl

/-- **The text of a right hand side is split into its terms.** -/
theorem splits_toText (h : form.Writable) (hne : form ≠ zero) :
    Splits form.toText.toList (form.terms.map shown) := by
  have hterm : ∀ text ∈ form.coefficients.map (fun t => termChars t.1 t.2),
      Splits text [text] ∧ Splits (text ++ [' ']) [text] := by
    intro text htext
    obtain ⟨t, ht, rfl⟩ := List.mem_map.mp htext
    have hc := h.coefficient t.1 t.2 ht
    exact ⟨splits_of_unsplit (unsplit_termChars hc),
      splits_blank_behind (unsplit_termChars hc) (termChars_ne_nil _ _) (trimmed_termChars hc)⟩
  have htexts := texts_ne_nil hne
  rw [toList_toText hne, map_shown_terms]
  unfold texts at htexts ⊢
  cases hconstant : form.constant with
  | some c =>
    have hsplits := splits_intercalate (splits_chars (h.constant c hconstant))
      fun text htext => (hterm text htext).2
    simpa using hsplits
  | none =>
    rw [hconstant, Option.toList_none, List.map_nil, List.append_nil] at htexts
    rw [Option.toList_none, List.map_nil, List.append_nil, List.flatMap_nil, List.append_nil]
    obtain ⟨front, last, hfront⟩ := (List.eq_nil_or_concat' _).resolve_left htexts
    rw [hfront] at hterm ⊢
    exact splits_intercalate (hterm last (by simp)).1
      fun text htext => (hterm text (List.mem_append_left _ htext)).2

/-! ## Reading the terms -/

/-- A shown term that shows no variable in the wrong place is read back. -/
theorem parseTerm_shown {t : Option Variable × Regex} (ht : t.2.Writable)
    (hv : ∀ x, t.1 = some x → x.index < Variable.bound) (hfind : findVariable? t.2.chars = none) :
    parseTerm line (shown t) = .ok (t.2.leftAssociated, t.1) := by
  obtain ⟨v, r⟩ := t
  cases v with
  | none => exact parseTerm_chars ht hfind
  | some x =>
    rw [shown, parseTerm_termChars ht (hv x rfl)]
    dsimp only at hfind
    rw [hfind]

/-- A shown term that is read is read back, or it has no variable and is taken for one that
has. -/
theorem parseTerm_shown_cases {t : Option Variable × Regex} {o : Option Variable}
    (ht : t.2.Writable) (hv : ∀ x, t.1 = some x → x.index < Variable.bound)
    (h : parseTerm line (shown t) = .ok (r, o)) :
    findVariable? t.2.chars = none ∧ r = t.2.leftAssociated ∧ o = t.1 ∨ t.1 = none ∧ o ≠ none := by
  by_cases hfind : findVariable? t.2.chars = none
  · rw [parseTerm_shown ht hv hfind] at h
    obtain ⟨rfl, rfl⟩ := Prod.mk.inj (Except.ok.inj h)
    exact .inl ⟨hfind, rfl, rfl⟩
  · obtain ⟨v, s⟩ := t
    right
    cases v with
    | none =>
      refine ⟨rfl, ?_⟩
      rintro rfl
      exact hfind (trim_chars ht ▸ findVariable?_of_parseTerm h)
    | some x =>
      obtain ⟨w, hw⟩ := Option.ne_none_iff_exists'.mp hfind
      dsimp only at hw
      rw [shown, parseTerm_termChars ht (hv x rfl), hw] at h
      exact nomatch h

/-- The terms of a right hand side, as they are shown, can be read. -/
def Readable (ts : List (Option Variable × Regex)) : Prop := ∀ t ∈ ts,
  t.2.Writable ∧ ∀ x, t.1 = some x → x.index < Variable.bound

theorem Writable.readable_terms (h : form.Writable) : Readable form.terms := by
  intro t ht
  rcases mem_terms.mp ht with ⟨x, c, hc, rfl⟩ | ⟨c, s, hc, hs, rfl⟩
  · exact ⟨h.coefficient x c hc, fun y hy => Option.some.inj hy ▸ h.index x c hc⟩
  · exact ⟨Regex.writable_iff_unionTerms.mp (h.constant c hc) s hs, fun y hy => nomatch hy⟩

theorem parseTerms_shown : ∀ {ts : List (Option Variable × Regex)}, Readable ts →
    (∀ t ∈ ts, findVariable? t.2.chars = none) → ∀ (form : LinearForm) (uses),
      ∃ uses', parseTerms line (ts.map shown) form uses = .ok (ts.foldl addShown form, uses') ∧
        ∀ u ∈ uses', u ∈ uses ∨ ∃ t ∈ ts, t.1 = some u.2
  | [], _, _, form, uses => ⟨uses, rfl, fun _ => .inl⟩
  | t :: ts, hts, hfind, form, uses => by
    obtain ⟨⟨ht, hv⟩, hts⟩ := List.forall_mem_cons.mp hts
    obtain ⟨hfind, hrest⟩ := List.forall_mem_cons.mp hfind
    obtain ⟨uses', hparse, huses⟩ := parseTerms_shown hts hrest (form.addShown t)
      (t.1.toList.map ((line, ·)) ++ uses)
    refine ⟨uses', ?_, fun u hu => ?_⟩
    · rw [List.map_cons, parseTerms, parseTerm_shown ht hv hfind]
      exact hparse
    · rcases huses u hu with hu | ⟨s, hs, hsu⟩
      · rcases List.mem_append.mp hu with hu | hu
        · obtain ⟨x, hx, rfl⟩ := List.mem_map.mp hu
          exact .inr ⟨t, List.mem_cons_self, Option.mem_toList.mp hx⟩
        · exact .inl hu
      · exact .inr ⟨s, List.mem_cons_of_mem _ hs, hsu⟩

theorem findVariable?_of_parseTerms_shown : ∀ {ts : List (Option Variable × Regex)}
    {form form' : LinearForm} {uses uses' : List (Nat × Variable)}, Readable ts →
    parseTerms line (ts.map shown) form uses = .ok (form', uses') →
    (∀ c, form.constant = some c → findVariable? c.chars = none) →
      (∀ t ∈ ts, t.1 ≠ none → findVariable? t.2.chars = none) ∧
      ∀ c, form'.constant = some c → findVariable? c.chars = none
  | [], form, form', uses, uses', _, h, hform => by
    obtain ⟨rfl, -⟩ := Prod.mk.inj (Except.ok.inj h)
    exact ⟨fun _ ht => absurd ht List.not_mem_nil, hform⟩
  | t :: ts, form, form', uses, uses', hts, h, hform => by
    obtain ⟨⟨ht, hv⟩, hts⟩ := List.forall_mem_cons.mp hts
    obtain ⟨⟨r, o⟩, hterm, h⟩ := bind_eq_ok h
    have hcases := parseTerm_shown_cases ht hv hterm
    have hadd : ∀ c, (form.add o r).constant = some c → findVariable? c.chars = none := by
      cases o with
      | some x => exact hform
      | none =>
        intro c hc
        obtain ⟨hfind, rfl, -⟩ := hcases.resolve_right fun h => h.2 rfl
        rw [← Regex.chars_leftAssociated] at hfind
        obtain rfl := Option.some.inj hc
        cases hold : form.constant with
        | none => exact hfind
        | some l => exact findVariable?_unite_eq_none_iff.mpr ⟨hform l hold, hfind⟩
    obtain ⟨hrest, hform'⟩ := findVariable?_of_parseTerms_shown hts h hadd
    refine ⟨List.forall_mem_cons.mpr ⟨fun hne => ?_, hrest⟩, hform'⟩
    exact (hcases.resolve_right fun h => hne h.1).1

/-- What shows no variable is read back, and uses the variables that occur. -/
theorem ShowsNoVariable.parseTerms (h : form.ShowsNoVariable) (hw : form.Writable)
    (ho : form.Ordered) (line : Nat) (uses : List (Nat × Variable)) : ∃ uses',
      EquationSystem.parseTerms line (form.terms.map shown) zero uses = .ok (form.rejoined, uses') ∧
        ∀ u ∈ uses', u ∈ uses ∨ u.2 ∈ form.occurring := by
  have hfind : ∀ t ∈ form.terms, findVariable? t.2.chars = none := by
    intro t ht
    rcases mem_terms.mp ht with ⟨x, c, hc, rfl⟩ | ⟨c, s, hc, hs, rfl⟩
    · exact findVariable?_eq_none_iff.mpr (h.coefficient x c hc)
    · have hconstant := findVariable?_eq_none_iff.mpr (h.constant c hc)
      exact findVariable?_chars_eq_none_iff.mp hconstant s hs
  obtain ⟨uses', hparse, huses⟩ := parseTerms_shown hw.readable_terms hfind zero uses
  rw [foldl_addShown_terms ho] at hparse
  refine ⟨uses', hparse, fun u hu => (huses u hu).imp_right ?_⟩
  rintro ⟨t, ht, hv⟩
  exact mem_occurring_of_mem_terms ht hv

/-- What is read back shows no variable. -/
theorem showsNoVariable_of_parseTerms (hw : form.Writable)
    (h : EquationSystem.parseTerms line (form.terms.map shown) zero uses =
      .ok (form.rejoined, uses')) : form.ShowsNoVariable := by
  obtain ⟨hterms, hconstant⟩ :=
    findVariable?_of_parseTerms_shown hw.readable_terms h fun c hc => nomatch hc
  refine ⟨fun x c hc => ?_, fun c hc => ?_⟩
  · have ht : (some x, c) ∈ form.terms := mem_terms.mpr (.inl ⟨x, c, hc, rfl⟩)
    exact findVariable?_eq_none_iff.mp (hterms _ ht (Option.some_ne_none x))
  · exact findVariable?_eq_none_iff.mp (findVariable?_of_rejoined hconstant c hc)

end LinearForm

/-! ## The text of a system -/

namespace EquationSystem

variable {S : EquationSystem} {reading reading' : Reading} {v : Variable} {form : LinearForm}
  {r : Regex}

theorem isPlain_of_mem_chars (h : r.Writable) : ∀ c ∈ r.chars, IsPlain c := by
  have hne {d : Char} (hd : Regex.Token.ofChar? d = none) (c : Char) (hc : c ∈ r.chars) :
      c ≠ d := by
    rintro rfl
    exact Regex.not_mem_chars h hd hc
  exact fun c hc => ⟨hne (by decide +kernel) c hc, hne (by decide +kernel) c hc,
    hne (by decide +kernel) c hc⟩

theorem isPlain_of_mem_termChars (h : r.Writable) : ∀ c ∈ termChars v r, IsPlain c := by
  by_cases hr : r = .epsilon
  · rw [hr]
    exact isPlain_of_mem_variable
  · rw [termChars_eq hr]
    refine List.forall_mem_append.mpr ⟨List.forall_mem_append.mpr ⟨fun c hc => ?_, ?_⟩,
      isPlain_of_mem_variable⟩
    · rcases Regex.mem_guarded hc with rfl | hc | rfl
      · decide
      · exact isPlain_of_mem_chars h c hc
      · decide
    · exact List.forall_mem_singleton.mpr (by decide)

/-- What the texts of the terms are. -/
theorem forall_mem_texts (h : form.Writable) : ∀ text ∈ form.texts,
    text ≠ [] ∧ Text.Trimmed text ∧ ∀ c ∈ text, IsPlain c := by
  intro text htext
  rcases List.mem_append.mp htext with htext | htext
  · obtain ⟨t, ht, rfl⟩ := List.mem_map.mp htext
    have hc := h.coefficient t.1 t.2 ht
    exact ⟨termChars_ne_nil _ _, trimmed_termChars hc, isPlain_of_mem_termChars hc⟩
  · obtain ⟨c, hc, rfl⟩ := List.mem_map.mp htext
    have hr := h.constant c (Option.mem_toList.mp hc)
    exact ⟨Regex.chars_ne_nil c, Text.trimmed_of_forall (Regex.not_isBlank_of_mem_chars hr),
      isPlain_of_mem_chars hr⟩

theorem isPlain_of_mem_toText (h : form.Writable) (hne : form ≠ .zero) :
    ∀ c ∈ form.toText.toList, IsPlain c := by
  rw [LinearForm.toList_toText hne]
  refine Text.forall_mem_intercalate ?_ fun text htext => (forall_mem_texts h text htext).2.2
  exact List.forall_mem_cons.mpr ⟨by decide, List.forall_mem_cons.mpr ⟨by decide,
    List.forall_mem_singleton.mpr (by decide)⟩⟩

/-- The characters of the line that shows an equation. -/
def lineChars (equation : Variable × LinearForm) : List Char :=
  equationChars equation.1 (' ' :: equation.2.toText.toList)

theorem toList_toText (S : EquationSystem) :
    S.toText.toList = ['\n'].intercalate (S.equations.map lineChars) := by
  rw [toText, String.toList_intercalate, List.map_map]
  congr 1
  refine List.map_congr_left fun equation _ => ?_
  simp [lineChars, equationChars, Variable.toList_toText]

/-- A right hand side ends with one of its texts, so nothing is taken away at its end. -/
theorem trimEnd_toText (h : form.Writable) (hne : form ≠ .zero) :
    Text.trimEnd (' ' :: form.toText.toList) = ' ' :: form.toText.toList := by
  obtain ⟨front, last, hlast, htext⟩ :=
    Text.exists_intercalate_eq [' ', '+', ' '] (LinearForm.texts_ne_nil hne)
  obtain ⟨hlastne, hlasttrim, -⟩ := forall_mem_texts h last hlast
  have hpadded : Text.trimEnd (' ' :: form.toText.toList ++ []) = ' ' :: form.toText.toList := by
    refine Text.trimEnd_padded (List.forall_mem_nil _) fun c hc => ?_
    rw [LinearForm.toList_toText hne, htext, ← List.cons_append,
      List.getLast?_append_of_ne_nil _ hlastne] at hc
    exact hlasttrim.last c hc
  rwa [List.append_nil] at hpadded

theorem forall_mem_right (h : form.Writable) (hne : form ≠ .zero) :
    ∀ c ∈ ' ' :: form.toText.toList, c ≠ '\n' ∧ c ≠ '#' := by
  refine List.forall_mem_cons.mpr ⟨by decide, fun c hc => ?_⟩
  have hplain := isPlain_of_mem_toText h hne c hc
  exact ⟨hplain.1, hplain.2.1⟩

/-- **The line of an equation** is read by its terms. -/
theorem parseLine_lineChars (hv : v.index < Variable.bound)
    (hnew : v ∉ reading.equations.map (·.1)) (h : form.Writable) (hne : form ≠ .zero) :
    parseLine reading line (lineChars (v, form)) =
      (parseTerms line (form.terms.map LinearForm.shown) .zero reading.uses).map fun found =>
        ⟨(v, found.1) :: reading.equations, found.2⟩ := by
  have hterms : parseTerms line (splitTerms 0 (' ' :: form.toText.toList)) .zero reading.uses =
      parseTerms line (form.terms.map LinearForm.shown) .zero reading.uses :=
    parseTerms_congr (LinearForm.splits_toText h hne).blank.atEnd
  rw [lineChars, parseLine_equation hv hnew (forall_mem_right h hne), trimEnd_toText h hne, hterms]

/-! ## Reading the lines of equations -/

/-- The equations can be displayed, and be read behind those that have been read. -/
structure Presentable (equations : List (Variable × LinearForm)) (reading : Reading) : Prop where
  equation : ∀ e ∈ equations, e.1.index < Variable.bound ∧ e.2.Writable ∧ e.2 ≠ .zero ∧ e.2.Ordered
  nodup : (equations.map (·.1) ++ reading.equations.map (·.1)).Nodup

theorem Presentable.tail {e : Variable × LinearForm} {equations : List (Variable × LinearForm)}
    (h : Presentable (e :: equations) reading) (form : LinearForm) (uses : List (Nat × Variable)) :
    Presentable equations ⟨(e.1, form) :: reading.equations, uses⟩ :=
  ⟨fun f hf => h.equation f (List.mem_cons_of_mem _ hf), List.nodup_middle.mpr h.nodup⟩

/-- The line of the first equation, by its terms. -/
theorem Presentable.parseLine_eq {e : Variable × LinearForm}
    {equations : List (Variable × LinearForm)} (h : Presentable (e :: equations) reading) :
    parseLine reading line (lineChars e) =
      (parseTerms line (e.2.terms.map LinearForm.shown) .zero reading.uses).map fun found =>
        ⟨(e.1, found.1) :: reading.equations, found.2⟩ := by
  obtain ⟨hv, hw, hne, -⟩ := h.equation e List.mem_cons_self
  have hnew : e.1 ∉ equations.map (·.1) ++ reading.equations.map (·.1) :=
    (List.nodup_cons.mp h.nodup).1
  exact parseLine_lineChars hv (fun hmem => hnew (List.mem_append_right _ hmem)) hw hne

/-- **Equations that show no variable are read back.** -/
theorem parseLines_lineChars : ∀ {equations : List (Variable × LinearForm)} {reading : Reading},
    Presentable equations reading → (∀ e ∈ equations, e.2.ShowsNoVariable) → ∀ line : Nat,
      ∃ uses, parseLines reading line (equations.map lineChars) =
          .ok ⟨(equations.map fun e => (e.1, e.2.rejoined)).reverse ++ reading.equations, uses⟩ ∧
        ∀ u ∈ uses, u ∈ reading.uses ∨ ∃ e ∈ equations, u.2 ∈ e.2.occurring
  | [], reading, _, _, _ => ⟨reading.uses, rfl, fun _ => .inl⟩
  | e :: equations, reading, h, hshows, line => by
    obtain ⟨he, hequations⟩ := List.forall_mem_cons.mp hshows
    obtain ⟨-, hw, -, ho⟩ := h.equation e List.mem_cons_self
    obtain ⟨uses, hparse, huses⟩ := he.parseTerms hw ho line reading.uses
    obtain ⟨uses', hlines, huses'⟩ :=
      parseLines_lineChars (h.tail e.2.rejoined uses) hequations (line + 1)
    refine ⟨uses', ?_, fun u hu => ?_⟩
    · rw [List.map_cons, parseLines, h.parseLine_eq, hparse]
      rw [List.map_cons, List.reverse_cons, List.append_assoc]
      exact hlines
    · rcases huses' u hu with hu | ⟨f, hf, hu⟩
      · rcases huses u hu with hu | hu
        · exact .inl hu
        · exact .inr ⟨e, List.mem_cons_self, hu⟩
      · exact .inr ⟨f, List.mem_cons_of_mem _ hf, hu⟩

/-- Equations that have been read stay. -/
theorem suffix_of_parseLines {lines : List (List Char)}
    (h : parseLines reading line lines = .ok reading') :
    reading.equations <:+ reading'.equations := by
  refine parseLines_keeps (P := fun r => reading.equations <:+ r.equations) (fun hline hr => ?_) h
    List.suffix_rfl
  rcases parseLine_cases hline with rfl | ⟨v, terms, form, uses, -, -, -, -, rfl⟩
  · exact hr
  · exact hr.trans (List.suffix_cons _ _)

/-- **Equations that are read back show no variable.** -/
theorem showsNoVariable_of_parseLines : ∀ {equations : List (Variable × LinearForm)} {line : Nat}
    {reading reading' : Reading}, Presentable equations reading →
      parseLines reading line (equations.map lineChars) = .ok reading' →
      reading'.equations =
        (equations.map fun e => (e.1, e.2.rejoined)).reverse ++ reading.equations →
      ∀ e ∈ equations, e.2.ShowsNoVariable
  | [], _, _, _, _, _, _ => fun e he => absurd he List.not_mem_nil
  | e :: equations, line, reading, reading', h, hlines, heq => by
    obtain ⟨-, hw, -, -⟩ := h.equation e List.mem_cons_self
    obtain ⟨next, hnext, hlines⟩ := bind_eq_ok hlines
    rw [h.parseLine_eq] at hnext
    obtain ⟨⟨form, uses⟩, hparse, rfl⟩ := map_eq_ok hnext
    obtain ⟨new, hnew⟩ := suffix_of_parseLines hlines
    rw [List.map_cons, List.reverse_cons, List.append_assoc] at heq
    obtain ⟨-, htail⟩ := List.append_inj' (hnew.trans heq) rfl
    obtain ⟨hfirst, -⟩ := List.cons.inj htail
    obtain rfl : form = e.2.rejoined := (Prod.mk.inj hfirst).2
    refine List.forall_mem_cons.mpr ⟨LinearForm.showsNoVariable_of_parseTerms hw hparse, ?_⟩
    exact showsNoVariable_of_parseLines (h.tail e.2.rejoined uses) hlines heq

/-! ## Displaying and reading a system -/

/-- No right hand side has a text in which a symbol looks like a variable. -/
def ShowsNoVariable (S : EquationSystem) : Prop :=
  ∀ v form, (v, form) ∈ S.equations → form.ShowsNoVariable

theorem presentable (hS : S.WellFormed) (hw : S.Writable) : Presentable S.equations ⟨[], []⟩ := by
  refine ⟨fun e he => ?_, ?_⟩
  · obtain ⟨hv, hform, hne⟩ := hw e.1 e.2 he
    exact ⟨hv, hform, hne, hS.ordered e.1 e.2 he⟩
  · rw [List.map_nil, List.append_nil]
    exact hS.nodup

/-- The lines of the text are those of the equations. -/
theorem parseLines_toText (hw : S.Writable) : parseLines ⟨[], []⟩ 1 (Text.lines S.toText.toList) =
    parseLines ⟨[], []⟩ 1 (S.equations.map lineChars) := by
  rw [toList_toText]
  by_cases hS : S.equations = []
  · rw [hS]
    rfl
  · rw [Text.lines_intercalate (by simpa using hS)]
    intro text htext
    obtain ⟨e, he, rfl⟩ := List.mem_map.mp htext
    obtain ⟨-, hform, hne⟩ := hw e.1 e.2 he
    exact fun hbreak => (forall_mem_equationChars (forall_mem_right hform hne) _ hbreak).1 rfl

theorem parse_toText_of_showsNoVariable (hS : S.WellFormed) (hw : S.Writable)
    (h : S.ShowsNoVariable) : parse S.toText = .ok S.rejoined := by
  obtain ⟨uses, hlines, huses⟩ :=
    parseLines_lineChars (presentable hS hw) (fun e he => h e.1 e.2 he) 1
  refine parse_eq_ok_iff.mpr ⟨_, (parseLines_toText hw).trans hlines, fun u hu => ?_, ?_⟩
  · obtain ⟨e, he, hocc⟩ := (huses u hu).resolve_left List.not_mem_nil
    have hdefined : u.2 ∈ S.rejoined.unknowns :=
      S.rejoined_sameMeaning.unknowns_eq ▸ hS.defined e.1 e.2 he u.2 hocc
    rw [List.append_nil, List.map_reverse, List.mem_reverse]
    exact hdefined
  · rw [List.append_nil, List.reverse_reverse]
    rfl

theorem showsNoVariable_of_parse_toText (hS : S.WellFormed) (hw : S.Writable)
    (h : parse S.toText = .ok S.rejoined) : S.ShowsNoVariable := by
  obtain ⟨reading, hlines, -, heq⟩ := parse_eq_ok_iff.mp h
  rw [parseLines_toText hw] at hlines
  have hequations : reading.equations = S.rejoined.equations.reverse := by
    rw [heq, List.reverse_reverse]
  have hshows := showsNoVariable_of_parseLines (presentable hS hw) hlines
    (by rw [hequations, List.append_nil]; rfl)
  exact fun v form hf => hshows (v, form) hf

/-- **A displayed system is read back** exactly if no coefficient and no constant part has a text
in which an `x` stands in front of the digits of a variable. What is read back has the same
variables in the same order, coefficients and constant parts of the same languages, and solutions
that give every variable the same language. -/
theorem parse_toText_iff_showsNoVariable {text : String} (h : parse text = .ok S) :
    (parse S.toText = .ok S.rejoined ↔ S.ShowsNoVariable) ∧ S.SameMeaning S.rejoined ∧
      ∃ X Y, S.solve = .ok X ∧ S.rejoined.solve = .ok Y ∧
        ∀ v ∈ S.unknowns, ∀ w, X.assignment v w ↔ Y.assignment v w := by
  have hS := parse_wellFormed h
  have hw := parse_writable h
  exact ⟨⟨showsNoVariable_of_parse_toText hS hw, parse_toText_of_showsNoVariable hS hw⟩,
    S.rejoined_sameMeaning, S.rejoined_sameMeaning.solve hS hS.rejoined⟩

/-- Chains to the right and a term that stands twice in the constant part: `rejoined` differs from
the system. -/
theorem parse_toText_of_right_chains :
    ∃ S, parse "x1 = a(bc) x1 + (d+(d+e))" = .ok S ∧ S.toText = "x1 = abc x1 + d+d+e" ∧
      S.rejoined ≠ S ∧ parse S.toText = .ok S.rejoined ∧ S.ShowsNoVariable := by
  let S : EquationSystem := ⟨[(⟨1⟩, ⟨[(⟨1⟩, .concat (.symbol 'a') (.concat (.symbol 'b')
    (.symbol 'c')))], some (.union (.symbol 'd') (.union (.symbol 'd') (.symbol 'e')))⟩)]⟩
  have hparse : parse "x1 = a(bc) x1 + (d+(d+e))" = .ok S := by rfl
  have htext : S.toText = "x1 = abc x1 + d+d+e" := by rfl
  have hread : parse "x1 = abc x1 + d+d+e" = .ok S.rejoined := by rfl
  have hback : parse S.toText = .ok S.rejoined := by rw [htext, hread]
  exact ⟨S, hparse, htext, by decide, hback,
    (parse_toText_iff_showsNoVariable hparse).1.mp hback⟩

/-- The word `x1` as constant part: displayed, it is the variable `x1`, so what is read has another
constant part. -/
theorem not_sameMeaning_of_symbol_before_digit :
    ∃ S, parse "x1 = (x)1" = .ok S ∧ S.toText = "x1 = x1" ∧
      ¬ ∃ T, parse S.toText = .ok T ∧ S.SameMeaning T := by
  let S : EquationSystem := ⟨[(⟨1⟩, ⟨[], some (.concat (.symbol 'x') (.symbol '1'))⟩)]⟩
  have hparse : parse "x1 = (x)1" = .ok S := by rfl
  have htext : S.toText = "x1 = x1" := by rfl
  have hread : parse "x1 = x1" = .ok ⟨[(⟨1⟩, ⟨[(⟨1⟩, .epsilon)], none⟩)]⟩ := by rfl
  refine ⟨S, hparse, htext, ?_⟩
  rw [htext, hread]
  rintro ⟨T, hT, hmeaning⟩
  obtain rfl := Except.ok.inj hT
  obtain ⟨form, hform, hsame⟩ := hmeaning.exists_equation List.mem_cons_self
  obtain rfl := (Prod.mk.inj (List.mem_singleton.mp hform)).2
  exact (hsame.constant ['x', '1']).mp (.concat (.symbol 'x') (.symbol '1'))

/-- With a further symbol behind it, the text is not even read. -/
example : ∃ S, parse "x1 = (x)1a" = .ok S ∧ S.toText = "x1 = x1a" ∧
    parse "x1 = x1a" = .error (.misplacedVariable 1 ⟨1⟩) := ⟨_, rfl, rfl, rfl⟩

end EquationSystem

end RegularLanguages
