import RegularLanguages.Proofs.Equation.Meaning

/-!
# Right hand sides from their terms

The terms of a right hand side are its coefficients with their variables and the union terms of
its constant part. Adding them one after the other, each with its chains associated to the left,
gives a right hand side that looks different but means the same: a union term that stood twice in
the constant part is there once.

Results:
* **`rejoined_sameMeaning`**, `WellFormed.rejoined`: the right hand sides mean the same, and so do
  the systems.
* **`foldl_addShown_terms`**: this is what adding the terms gives.
* `findVariable?_of_rejoined`: what looks like a variable in the constant part stays there.
-/

namespace RegularLanguages

open EquationSystem

namespace LinearForm

variable {form : LinearForm} {v : Variable} {r : Regex}

/-- The right hand side with coefficients associated to the left, and with the constant part
united from its union terms. -/
def rejoined (form : LinearForm) : LinearForm :=
  ⟨form.coefficients.map fun t => (t.1, t.2.leftAssociated),
    form.constant.bind fun c => Regex.uniteAll (c.unionTerms.map Regex.leftAssociated)⟩

theorem occurring_rejoined (form : LinearForm) : form.rejoined.occurring = form.occurring := by
  rw [occurring, rejoined, List.map_map]
  rfl

theorem Ordered.rejoined (h : form.Ordered) : form.rejoined.Ordered := List.pairwise_map.mpr h

theorem coefficient?_rejoined (form : LinearForm) (v : Variable) :
    form.rejoined.coefficient? v = (form.coefficient? v).map Regex.leftAssociated := by
  unfold coefficient? rejoined
  dsimp only
  induction form.coefficients with
  | nil => rfl
  | cons t l ih =>
    rw [List.map_cons, List.lookup_cons, List.lookup_cons, ih]
    cases v == t.1 <;> rfl

theorem rejoined_sameMeaning (form : LinearForm) : form.SameMeaning form.rejoined := by
  constructor
  · intro x w
    rw [coefficient?_rejoined]
    cases form.coefficient? x with
    | none => exact Iff.rfl
    | some c => exact Regex.matches_leftAssociated.symm
  · intro w
    cases hc : form.constant with
    | none => simp [rejoined, hc]
    | some c =>
      rw [rejoined, hc]
      show _ ↔ Regex.languageOf (Regex.uniteAll (c.unionTerms.map Regex.leftAssociated)) w
      rw [Regex.matches_uniteAll]
      simp only [List.mem_map, exists_exists_and_eq_and, Regex.matches_leftAssociated]
      exact Regex.matches_iff_unionTerms

/-! ## Adding the terms -/

/-- The terms in the order in which they are written: the coefficients with their variables, and
the union terms of the constant part. -/
def terms (form : LinearForm) : List (Option Variable × Regex) :=
  form.coefficients.map (fun t => (some t.1, t.2)) ++
    form.constant.toList.flatMap fun c => c.unionTerms.map fun t => (none, t)

theorem mem_terms {t : Option Variable × Regex} : t ∈ form.terms ↔
    (∃ x c, (x, c) ∈ form.coefficients ∧ t = (some x, c)) ∨
      ∃ c s, form.constant = some c ∧ s ∈ c.unionTerms ∧ t = (none, s) := by
  simp only [terms, List.mem_append, List.mem_map, List.mem_flatMap, Option.mem_toList, Prod.exists,
    eq_comm (b := t), exists_and_left]

/-- Adds a term with its chains associated to the left. -/
def addShown (form : LinearForm) (t : Option Variable × Regex) : LinearForm :=
  form.add t.1 t.2.leftAssociated

theorem addCoefficient_of_lt : ∀ {l : List (Variable × Regex)},
    (∀ t ∈ l, t.1.index < v.index) → addCoefficient v r l = l ++ [(v, r)]
  | [], _ => rfl
  | (x, s) :: l, h => by
    obtain ⟨hx, hl⟩ := List.forall_mem_cons.mp h
    have hne : v ≠ x := by
      rintro rfl
      exact Nat.lt_irrefl _ hx
    rw [addCoefficient, if_neg hne, if_neg (Nat.not_lt.mpr (Nat.le_of_lt hx)),
      addCoefficient_of_lt hl, List.cons_append]

/-- Coefficients in the order of their variables are added behind each other. -/
theorem foldl_addShown_coefficients : ∀ {l : List (Variable × Regex)} {form : LinearForm},
    ((form.coefficients ++ l).map (·.1.index)).Pairwise (· < ·) →
      (l.map fun t => (some t.1, t.2)).foldl addShown form =
        ⟨form.coefficients ++ l.map fun t => (t.1, t.2.leftAssociated), form.constant⟩
  | [], form, _ => by simp
  | (x, c) :: l, form, h => by
    have hlt : ∀ t ∈ form.coefficients, t.1.index < x.index := by
      rw [List.map_append, List.map_cons, List.pairwise_append] at h
      intro t ht
      exact h.2.2 _ (List.mem_map_of_mem ht) _ List.mem_cons_self
    have hadd : addShown form (some x, c) =
        ⟨form.coefficients ++ [(x, c.leftAssociated)], form.constant⟩ := by
      rw [addShown, add, addCoefficient_of_lt hlt]
    have hrest : ((form.coefficients ++ [(x, c.leftAssociated)] ++ l).map
        (·.1.index)).Pairwise (· < ·) := by
      simpa using h
    rw [List.map_cons, List.foldl_cons, hadd, foldl_addShown_coefficients hrest]
    simp

/-- Terms without variable are united. -/
theorem foldl_addShown_constant (l : List (Variable × Regex)) (rs : List Regex) :
    (rs.map fun t => (none, t)).foldl addShown ⟨l, none⟩ =
      ⟨l, Regex.uniteAll (rs.map Regex.leftAssociated)⟩ := by
  rw [← foldl_add_none, List.foldl_map, List.foldl_map]
  rfl

/-- **Adding all terms that are shown** gives the right hand side rejoined. -/
theorem foldl_addShown_terms (h : form.Ordered) :
    form.terms.foldl addShown zero = form.rejoined := by
  have hordered : ((zero.coefficients ++ form.coefficients).map (·.1.index)).Pairwise (· < ·) :=
    List.pairwise_map.mpr h
  rw [terms, List.foldl_append, foldl_addShown_coefficients hordered, rejoined]
  cases form.constant with
  | none => rfl
  | some c =>
    show ((c.unionTerms.map fun t => (none, t)) ++ []).foldl addShown _ = _
    rw [List.append_nil]
    exact foldl_addShown_constant _ c.unionTerms

theorem mem_occurring_of_mem_terms {t : Option Variable × Regex} (ht : t ∈ form.terms)
    (hv : t.1 = some v) : v ∈ form.occurring := by
  rcases mem_terms.mp ht with ⟨x, c, hc, rfl⟩ | ⟨c, s, -, -, rfl⟩
  · obtain rfl := Option.some.inj hv
    exact List.mem_map_of_mem hc
  · exact nomatch hv

/-- Uniting the union terms again hides no variable. -/
theorem findVariable?_of_rejoined (h : ∀ c, form.rejoined.constant = some c →
    findVariable? c.chars = none) (c : Regex) (hc : form.constant = some c) :
    findVariable? c.chars = none := by
  rw [findVariable?_chars_eq_none_iff]
  have hrejoined : form.rejoined.constant =
      Regex.uniteAll (c.unionTerms.map Regex.leftAssociated) := by
    rw [rejoined, hc, Option.bind_some]
  cases hterms : c.unionTerms with
  | nil => exact fun t ht => absurd ht List.not_mem_nil
  | cons r rs =>
    rw [hterms] at hrejoined
    have hall := findVariable?_foldl_unite_eq_none_iff.mp (h _ hrejoined)
    intro t ht
    rw [← Regex.chars_leftAssociated]
    exact hall t.leftAssociated (List.mem_map_of_mem ht)

end LinearForm

namespace EquationSystem

variable {S : EquationSystem}

/-- The system with all right hand sides rejoined. -/
def rejoined (S : EquationSystem) : EquationSystem :=
  ⟨S.equations.map fun e => (e.1, e.2.rejoined)⟩

theorem rejoined_sameMeaning (S : EquationSystem) : S.SameMeaning S.rejoined := by
  refine List.forall₂_map_right_iff.mpr (List.forall₂_same.mpr fun e _ => ?_)
  exact ⟨rfl, e.2.rejoined_sameMeaning⟩

theorem WellFormed.rejoined (h : S.WellFormed) : S.rejoined.WellFormed := by
  have hunknowns := S.rejoined_sameMeaning.unknowns_eq
  have hequation {v : Variable} {form : LinearForm} (hf : (v, form) ∈ S.rejoined.equations) :
      ∃ old, (v, old) ∈ S.equations ∧ form = old.rejoined := by
    obtain ⟨e, he, heq⟩ := List.mem_map.mp hf
    obtain ⟨rfl, rfl⟩ := Prod.mk.inj heq
    exact ⟨e.2, he, rfl⟩
  refine ⟨hunknowns ▸ h.nodup, fun v form hf => ?_, fun v form hf x hx => ?_⟩
  · obtain ⟨old, hold, rfl⟩ := hequation hf
    exact (h.ordered v old hold).rejoined
  · obtain ⟨old, hold, rfl⟩ := hequation hf
    rw [LinearForm.occurring_rejoined] at hx
    exact hunknowns ▸ h.defined v old hold x hx

end EquationSystem

end RegularLanguages
