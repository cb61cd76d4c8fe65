import RegularLanguages.Proofs.Equation.LinearForm
import RegularLanguages.Proofs.Equation.Terms
import RegularLanguages.Proofs.Outcome

/-!
# What a text promises about its system

Reading rejects a second equation for a variable and, at the end, a variable without equation.
Every line adds one equation and records the variables that its right hand side uses; the
invariant `Reading.Tracks` says that nothing that occurs is missing from the record.

Results:
* `parseLine_cases`: what reading a line can do.
* `parseLines_keeps`, `parse_eq_ok_iff`: from lines to texts.
* **`parse_wellFormed`**: every variable of a system that has been read has exactly one equation.
* **`parse_writable`**: everything in a system that has been read has a text that can be read.
-/

namespace RegularLanguages

namespace EquationSystem

/-- Every variable has at most one equation, the terms of all right hand sides are ordered and
all variables that occur have an equation. -/
structure WellFormed (S : EquationSystem) : Prop where
  nodup : S.unknowns.Nodup
  ordered : ∀ v form, (v, form) ∈ S.equations → form.Ordered
  defined : ∀ v form, (v, form) ∈ S.equations → ∀ x ∈ form.occurring, x ∈ S.unknowns

/-- What reading keeps: no variable has two equations, and every variable that occurs has been
recorded. -/
structure Reading.Tracks (reading : Reading) : Prop where
  nodup : (reading.equations.map (·.1)).Nodup
  ordered : ∀ v form, (v, form) ∈ reading.equations → form.Ordered
  recorded : ∀ v form, (v, form) ∈ reading.equations → ∀ x ∈ form.occurring,
    x ∈ reading.uses.map (·.2)

/-- Reading terms keeps the order of the coefficients, forgets no use of a variable and records
the variables of the terms. -/
theorem parseTerms_spec {line : Nat} : ∀ {terms : List (List Char)} {form form' : LinearForm}
    {uses uses' : List (Nat × Variable)}, parseTerms line terms form uses = .ok (form', uses') →
      form.Ordered → (∀ x ∈ form.occurring, x ∈ uses.map (·.2)) →
      form'.Ordered ∧ (∀ x ∈ form'.occurring, x ∈ uses'.map (·.2)) ∧ ∀ u ∈ uses, u ∈ uses'
  | [], form, form', uses, uses', h, hord, hrec => by
    obtain ⟨rfl, rfl⟩ := Prod.mk.inj (Except.ok.inj h)
    exact ⟨hord, hrec, fun _ hu => hu⟩
  | term :: terms, form, form', uses, uses', h, hord, hrec => by
    obtain ⟨⟨r, v⟩, -, h⟩ := bind_eq_ok h
    have hrec' : ∀ x ∈ (form.add v r).occurring,
        x ∈ (v.toList.map ((line, ·)) ++ uses).map (·.2) := by
      intro x hx
      rw [List.map_append, List.mem_append, List.map_map]
      rcases LinearForm.mem_occurring_add.mp hx with rfl | hx
      · exact Or.inl (by simp)
      · exact Or.inr (hrec x hx)
    obtain ⟨h1, h2, h3⟩ := parseTerms_spec h (hord.add v r) hrec'
    exact ⟨h1, h2, fun u hu => h3 u (List.mem_append_right _ hu)⟩

/-- Reading a line changes nothing, or adds an equation for a variable that has none. -/
theorem parseLine_cases {reading reading' : Reading} {line : Nat} {text : List Char}
    (h : parseLine reading line text = .ok reading') :
    reading' = reading ∨ ∃ v terms form uses, v.index < Variable.bound ∧
      v ∉ reading.equations.map (·.1) ∧ terms ≠ [] ∧
      parseTerms line terms .zero reading.uses = .ok (form, uses) ∧
      reading' = ⟨(v, form) :: reading.equations, uses⟩ := by
  unfold parseLine at h
  dsimp only at h
  split at h
  · exact Or.inl (Except.ok.inj h).symm
  · split at h
    · exact nomatch h
    · split at h
      · exact nomatch h
      · rename_i v hname
        split at h
        · exact nomatch h
        · rename_i hv
          obtain ⟨⟨form, uses⟩, hterms, h⟩ := bind_eq_ok h
          exact Or.inr ⟨v, _, form, uses, Variable.lt_bound_of_ofChars? hname, hv,
            splitTerms_ne_nil _ _, hterms, (Except.ok.inj h).symm⟩

/-- What every line keeps, all lines keep. -/
theorem parseLines_keeps {P : Reading → Prop} (hline : ∀ {reading next : Reading} {line : Nat}
    {text : List Char}, parseLine reading line text = .ok next → P reading → P next) :
    ∀ {lines : List (List Char)} {line : Nat} {reading reading' : Reading},
      parseLines reading line lines = .ok reading' → P reading → P reading'
  | [], _, _, _, h, hreading => Except.ok.inj h ▸ hreading
  | text :: lines, line, reading, reading', h, hreading => by
    obtain ⟨next, hnext, h⟩ := bind_eq_ok h
    exact parseLines_keeps hline h (hline hnext hreading)

/-- A text is read if its lines are and every variable in use has an equation. -/
theorem parse_eq_ok_iff {text : String} {S : EquationSystem} : parse text = .ok S ↔
    ∃ reading, parseLines ⟨[], []⟩ 1 (Text.lines text.toList) = .ok reading ∧
      (∀ u ∈ reading.uses, u.2 ∈ reading.equations.map (·.1)) ∧
      S = ⟨reading.equations.reverse⟩ := by
  unfold parse
  rw [bind_eq_ok_iff]
  refine exists_congr fun reading => and_congr_right fun _ => ?_
  dsimp only
  cases hfind : reading.uses.reverse.find? fun u => u.2 ∉ reading.equations.map (·.1) with
  | none =>
    have hdefined : ∀ u ∈ reading.uses, u.2 ∈ reading.equations.map (·.1) := fun u hu => by
      simpa using List.find?_eq_none.mp hfind u (List.mem_reverse.mpr hu)
    constructor
    · exact fun h => ⟨hdefined, (Except.ok.inj h).symm⟩
    · rintro ⟨-, rfl⟩
      rfl
  | some u =>
    have hu := List.mem_reverse.mp (List.mem_of_find?_eq_some hfind)
    have hundefined : u.2 ∉ reading.equations.map (·.1) := by
      simpa using List.find?_some hfind
    exact iff_of_false (by simp) fun h => hundefined (h.1 u hu)

/-! ## The variables of a system -/

theorem parseLine_tracks {reading reading' : Reading} {line : Nat} {text : List Char}
    (h : parseLine reading line text = .ok reading') (ht : reading.Tracks) : reading'.Tracks := by
  rcases parseLine_cases h with rfl | ⟨v, terms, form, uses, -, hv, -, hterms, rfl⟩
  · exact ht
  · obtain ⟨hord, hrec, hkeep⟩ := parseTerms_spec hterms List.Pairwise.nil
      (fun x hx => absurd hx List.not_mem_nil)
    refine ⟨List.nodup_cons.mpr ⟨hv, ht.nodup⟩, fun w g hg => ?_, fun w g hg x hx => ?_⟩
    · rcases List.mem_cons.mp hg with hg | hg
      · obtain ⟨rfl, rfl⟩ := Prod.mk.inj hg
        exact hord
      · exact ht.ordered w g hg
    · rcases List.mem_cons.mp hg with hg | hg
      · obtain ⟨rfl, rfl⟩ := Prod.mk.inj hg
        exact hrec x hx
      · obtain ⟨u, hu, rfl⟩ := List.mem_map.mp (ht.recorded w g hg x hx)
        exact List.mem_map_of_mem (hkeep u hu)

/-- **A system that has been read** has exactly one equation for every variable. -/
theorem parse_wellFormed {text : String} {S : EquationSystem} (h : parse text = .ok S) :
    S.WellFormed := by
  obtain ⟨reading, hlines, hdefined, rfl⟩ := parse_eq_ok_iff.mp h
  have ht : reading.Tracks := parseLines_keeps parseLine_tracks hlines
    ⟨List.nodup_nil, fun _ _ hm => absurd hm List.not_mem_nil,
      fun _ _ hm => absurd hm List.not_mem_nil⟩
  have hunknown (x : Variable) : x ∈ (⟨reading.equations.reverse⟩ : EquationSystem).unknowns ↔
      x ∈ reading.equations.map (·.1) := by
    rw [unknowns, List.map_reverse, List.mem_reverse]
  refine ⟨?_, fun v form hm => ?_, fun v form hm x hx => ?_⟩
  · rw [unknowns, List.map_reverse, List.nodup_reverse]
    exact ht.nodup
  · exact ht.ordered v form (List.mem_reverse.mp hm)
  · obtain ⟨u, hu, rfl⟩ := List.mem_map.mp (ht.recorded v form (List.mem_reverse.mp hm) x hx)
    exact (hunknown u.2).mpr (hdefined u hu)

end EquationSystem

/-! ## Texts that can be read again -/

namespace LinearForm

variable {form : LinearForm} {v : Option Variable} {r : Regex}

/-- The variables have numbers that are read, and the text of every coefficient and of the
constant part can be read. -/
structure Writable (form : LinearForm) : Prop where
  index : ∀ x c, (x, c) ∈ form.coefficients → x.index < Variable.bound
  coefficient : ∀ x c, (x, c) ∈ form.coefficients → c.Writable
  constant : ∀ c, form.constant = some c → c.Writable

/-- A property of coefficients that unions keep is kept when a coefficient is added. -/
theorem forall_mem_addCoefficient {x : Variable} {P : Variable → Regex → Prop} (hr : P x r)
    (hunite : ∀ c, P x c → P x (c.unite r)) : ∀ {l : List (Variable × Regex)},
    (∀ y c, (y, c) ∈ l → P y c) → ∀ y c, (y, c) ∈ addCoefficient x r l → P y c
  | [], _, y, c, h => by
    obtain ⟨rfl, rfl⟩ := Prod.mk.inj (List.mem_singleton.mp h)
    exact hr
  | (z, s) :: l, hl, y, c, h => by
    have hz := hl z s List.mem_cons_self
    have hrest : ∀ y c, (y, c) ∈ l → P y c := fun y c hc => hl y c (List.mem_cons_of_mem _ hc)
    unfold addCoefficient at h
    split at h
    · rename_i hxz
      subst hxz
      rcases List.mem_cons.mp h with h | h
      · obtain ⟨rfl, rfl⟩ := Prod.mk.inj h
        exact hunite s hz
      · exact hrest y c h
    · split at h
      · rcases List.mem_cons.mp h with h | h
        · obtain ⟨rfl, rfl⟩ := Prod.mk.inj h
          exact hr
        · exact hl y c h
      · rcases List.mem_cons.mp h with h | h
        · obtain ⟨rfl, rfl⟩ := Prod.mk.inj h
          exact hz
        · exact forall_mem_addCoefficient hr hunite hrest y c h

theorem Writable.add (h : form.Writable) (hv : ∀ x, v = some x → x.index < Variable.bound)
    (hr : r.Writable) : (form.add v r).Writable := by
  cases v with
  | none =>
    refine ⟨h.index, h.coefficient, fun c hc => ?_⟩
    rw [← Option.some.inj hc]
    exact Regex.Writable.adjoin h.constant hr
  | some x =>
    have hx := hv x rfl
    exact ⟨forall_mem_addCoefficient (P := fun y _ => y.index < Variable.bound) hx
        (fun _ _ => hx) h.index,
      forall_mem_addCoefficient (P := fun _ c => c.Writable) hr (fun _ hc => hc.unite hr)
        h.coefficient, h.constant⟩

theorem add_ne_zero (form : LinearForm) (v : Option Variable) (r : Regex) :
    form.add v r ≠ zero := by
  intro h
  cases v with
  | none => exact nomatch congrArg constant h
  | some x =>
    have hx : x ∈ (form.add (some x) r).occurring := mem_occurring_add.mpr (.inl rfl)
    rw [h] at hx
    exact absurd hx List.not_mem_nil

end LinearForm

namespace EquationSystem

/-- Every equation has a text that can be read. -/
def Writable (S : EquationSystem) : Prop := ∀ v form, (v, form) ∈ S.equations →
  v.index < Variable.bound ∧ form.Writable ∧ form ≠ .zero

theorem writable_of_parseTerm {line : Nat} {term : List Char} {r : Regex} {v : Option Variable}
    (h : parseTerm line term = .ok (r, v)) :
    r.Writable ∧ ∀ x, v = some x → x.index < Variable.bound := by
  rcases parseTerm_cases h with ⟨y, front, rfl, htrail, -, hr⟩ | ⟨rfl, -, hr⟩
  · obtain ⟨digits, -, -, hy⟩ := trailingVariable?_eq_some htrail
    refine ⟨?_, fun x hx => Option.some.inj hx ▸ Variable.lt_bound_of_ofChars? hy⟩
    rcases hr with rfl | hr
    · exact fun c hc => absurd hc List.not_mem_nil
    · exact Regex.writable_of_parseChars hr
  · exact ⟨Regex.writable_of_parseChars hr, fun x hx => nomatch hx⟩

theorem writable_of_parseTerms {line : Nat} : ∀ {terms : List (List Char)}
    {form form' : LinearForm} {uses uses' : List (Nat × Variable)},
    parseTerms line terms form uses = .ok (form', uses') → form.Writable →
      terms ≠ [] ∨ form ≠ .zero → form'.Writable ∧ form' ≠ .zero
  | [], form, form', uses, uses', h, hform, hne => by
    obtain ⟨rfl, -⟩ := Prod.mk.inj (Except.ok.inj h)
    exact ⟨hform, hne.resolve_left (absurd rfl)⟩
  | term :: terms, form, form', uses, uses', h, hform, _ => by
    obtain ⟨⟨r, v⟩, hterm, h⟩ := bind_eq_ok h
    obtain ⟨hr, hv⟩ := writable_of_parseTerm hterm
    exact writable_of_parseTerms h (hform.add hv hr) (.inr (LinearForm.add_ne_zero form v r))

theorem writable_of_parseLine {reading reading' : Reading} {line : Nat} {text : List Char}
    (h : parseLine reading line text = .ok reading') (hw : Writable ⟨reading.equations⟩) :
    Writable ⟨reading'.equations⟩ := by
  rcases parseLine_cases h with rfl | ⟨v, terms, form, uses, hv, -, hne, hterms, rfl⟩
  · exact hw
  · have hzero : LinearForm.zero.Writable :=
      ⟨fun _ _ hc => absurd hc List.not_mem_nil, fun _ _ hc => absurd hc List.not_mem_nil,
        fun _ hc => nomatch hc⟩
    intro w g hg
    rcases List.mem_cons.mp hg with hg | hg
    · obtain ⟨rfl, rfl⟩ := Prod.mk.inj hg
      exact ⟨hv, writable_of_parseTerms hterms hzero (.inl hne)⟩
    · exact hw w g hg

/-- **Everything in a system that has been read** has a text that can be read. -/
theorem parse_writable {text : String} {S : EquationSystem} (h : parse text = .ok S) :
    S.Writable := by
  obtain ⟨reading, hlines, -, rfl⟩ := parse_eq_ok_iff.mp h
  have hw : Writable ⟨reading.equations⟩ :=
    parseLines_keeps (P := fun reading => Writable ⟨reading.equations⟩) writable_of_parseLine
      hlines fun _ _ hm => absurd hm List.not_mem_nil
  exact fun v form hm => hw v form (List.mem_reverse.mp hm)

end EquationSystem

end RegularLanguages
