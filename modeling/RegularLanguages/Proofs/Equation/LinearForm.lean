import Mathlib.Data.List.Nodup
import RegularLanguages.Equation.Language
import RegularLanguages.Proofs.Regex.Simplification

/-!
# Right hand sides as operators on languages

What adding a term, putting an expression in front, resolving and substituting do to the language
of a right hand side, under an arbitrary assignment, and to the variables that occur in it. The
coefficients are kept in the order of their variables (`Ordered`), so that no variable has two.

Results:
* `language_add_some`, `language_add_none`, `language_behind`: terms and prefixes.
* **`language_substitute`**: a variable is replaced by what it stands for.
* `mem_occurring_resolve`, `mem_occurring_substitute`: a variable that is eliminated does not come
  back.
-/

namespace RegularLanguages

/-- A look-up in a list of pairs finds a pair, provided that no key occurs twice. -/
theorem lookup_eq_some_iff_mem {α β : Type} [BEq α] [LawfulBEq α] {k : α} {b : β} :
    ∀ {l : List (α × β)}, (l.map Prod.fst).Nodup → (l.lookup k = some b ↔ (k, b) ∈ l)
  | [], _ => by simp
  | (k', b') :: l, hn => by
    obtain ⟨hk, hn⟩ := List.nodup_cons.mp hn
    rw [List.lookup_cons]
    by_cases h : k = k'
    · subst h
      rw [beq_self_eq_true]
      simp only [Option.some.injEq, List.mem_cons, Prod.mk.injEq, true_and]
      constructor
      · exact fun hb => Or.inl hb.symm
      · rintro (hb | hb)
        · exact hb.symm
        · exact absurd (List.mem_map_of_mem hb) hk
    · rw [beq_false_of_ne h]
      simp only [List.mem_cons, Prod.mk.injEq, h, false_and, false_or]
      exact lookup_eq_some_iff_mem hn

theorem lookup_eq_none_iff_not_mem {α β : Type} [BEq α] [LawfulBEq α] {k : α}
    {l : List (α × β)} : l.lookup k = none ↔ k ∉ l.map Prod.fst := by
  rw [List.lookup_eq_none_iff, List.mem_map]
  constructor
  · rintro h ⟨⟨k', b⟩, hm, rfl⟩
    exact absurd (h _ hm) (by simp)
  · intro h p hp
    rw [bne_iff_ne]
    rintro rfl
    exact h ⟨p, hp, rfl⟩

namespace Regex

variable {r s : Regex} {M N : Language} {w : Word}

/-- A word of the expression followed by a word of the language. -/
def before (r : Regex) (M : Language) : Language := fun w =>
  ∃ u t, r.Matches u ∧ M t ∧ u ++ t = w

theorem before_mono (h : ∀ w, M w → N w) (hw : r.before M w) : r.before N w := by
  obtain ⟨u, t, hu, ht, he⟩ := hw
  exact ⟨u, t, hu, h t ht, he⟩

theorem before_congr (h : ∀ w, M w ↔ N w) : r.before M w ↔ r.before N w :=
  ⟨before_mono fun w => (h w).mp, before_mono fun w => (h w).mpr⟩

theorem before_or : r.before (fun w => M w ∨ N w) w ↔ r.before M w ∨ r.before N w := by
  constructor
  · rintro ⟨u, t, hu, ht | ht, he⟩
    · exact Or.inl ⟨u, t, hu, ht, he⟩
    · exact Or.inr ⟨u, t, hu, ht, he⟩
  · rintro (h | h)
    · exact before_mono (fun _ => Or.inl) h
    · exact before_mono (fun _ => Or.inr) h

theorem before_unite : (r.unite s).before M w ↔ r.before M w ∨ s.before M w := by
  simp only [before, matches_unite, or_and_right, exists_or]

theorem before_append : (r.append s).before M w ↔ r.before (s.before M) w := by
  simp only [before, matches_append]
  constructor
  · rintro ⟨_, t, ⟨u, v, hu, hv, rfl⟩, ht, rfl⟩
    exact ⟨u, v ++ t, hu, ⟨v, t, hv, ht, rfl⟩, (List.append_assoc u v t).symm⟩
  · rintro ⟨u, _, hu, ⟨v, t, hv, ht, rfl⟩, rfl⟩
    exact ⟨u ++ v, t, ⟨u, v, hu, hv, rfl⟩, ht, List.append_assoc u v t⟩

theorem before_languageOf {old : Option Regex} :
    r.before (languageOf old) w ↔ languageOf (old.map r.append) w := by
  cases old with
  | none =>
    refine iff_of_false ?_ id
    rintro ⟨_, _, _, h, _⟩
    exact h
  | some s => exact matches_append.symm

end Regex

namespace LinearForm

variable {form value : LinearForm} {L : Assignment} {v x : Variable} {r c : Regex} {w : Word}

/-! ## The language of a right hand side -/

/-- The words that the terms with variables give. -/
def termsLanguage (terms : List (Variable × Regex)) (L : Assignment) : Language := fun w =>
  ∃ v c, (v, c) ∈ terms ∧ c.before (L v) w

theorem language_iff :
    form.language L w ↔ termsLanguage form.coefficients L w ∨ Regex.languageOf form.constant w :=
  Iff.rfl

theorem termsLanguage_cons {terms : List (Variable × Regex)} :
    termsLanguage ((v, c) :: terms) L w ↔ c.before (L v) w ∨ termsLanguage terms L w := by
  simp only [termsLanguage, List.mem_cons, Prod.mk.injEq, or_and_right, exists_or]
  refine or_congr_left ⟨?_, fun h => ⟨v, c, ⟨rfl, rfl⟩, h⟩⟩
  rintro ⟨_, _, ⟨rfl, rfl⟩, h⟩
  exact h

theorem termsLanguage_addCoefficient : ∀ {terms : List (Variable × Regex)},
    termsLanguage (addCoefficient v r terms) L w ↔
      r.before (L v) w ∨ termsLanguage terms L w
  | [] => termsLanguage_cons
  | (x, s) :: terms => by
    unfold addCoefficient
    split
    · rename_i h
      subst h
      rw [termsLanguage_cons, termsLanguage_cons, Regex.before_unite, or_assoc]
      exact or_left_comm
    · split
      · exact termsLanguage_cons
      · rw [termsLanguage_cons, termsLanguage_cons, termsLanguage_addCoefficient]
        exact or_left_comm

theorem language_add_some :
    (form.add (some v) r).language L w ↔ r.before (L v) w ∨ form.language L w := by
  rw [language_iff, language_iff, add, termsLanguage_addCoefficient, or_assoc]

theorem language_add_none :
    (form.add none r).language L w ↔ r.Matches w ∨ form.language L w := by
  rw [language_iff, language_iff]
  show _ ∨ (Regex.adjoin form.constant r).Matches w ↔ _
  rw [Regex.matches_adjoin, ← or_assoc, or_comm]
  exact Iff.rfl

/-- Terms without variable are united behind each other. -/
theorem foldl_add_constant (l : List (Variable × Regex)) : ∀ (rs : List Regex) (r : Regex),
    rs.foldl (LinearForm.add · none ·) ⟨l, some r⟩ = ⟨l, some (rs.foldl Regex.unite r)⟩
  | [], _ => rfl
  | s :: rs, r => foldl_add_constant l rs (r.unite s)

theorem foldl_add_none (l : List (Variable × Regex)) (rs : List Regex) :
    rs.foldl (LinearForm.add · none ·) ⟨l, none⟩ = ⟨l, Regex.uniteAll rs⟩ := by
  cases rs with
  | nil => rfl
  | cons r rs => exact foldl_add_constant l rs r

theorem language_behind : (form.behind r).language L w ↔ r.before (form.language L) w := by
  have hterms : termsLanguage (form.behind r).coefficients L w ↔
      r.before (termsLanguage form.coefficients L) w := by
    simp only [termsLanguage, behind, List.mem_map, Prod.exists, Prod.mk.injEq]
    constructor
    · rintro ⟨v, _, ⟨_, c, hc, rfl, rfl⟩, h⟩
      exact Regex.before_mono (fun _ h => ⟨_, c, hc, h⟩) (Regex.before_append.mp h)
    · rintro ⟨u, t, hu, ⟨v, c, hc, ht⟩, he⟩
      exact ⟨v, _, ⟨v, c, hc, rfl, rfl⟩, Regex.before_append.mpr ⟨u, t, hu, ht, he⟩⟩
  rw [language_iff, hterms]
  show _ ∨ Regex.languageOf (form.constant.map r.append) w ↔ _
  rw [← Regex.before_languageOf, ← Regex.before_or]
  exact Iff.rfl

/-! ## Variables -/

/-- The variables that occur. -/
def occurring (form : LinearForm) : List Variable := form.coefficients.map (·.1)

/-- The variables stand in increasing order, so none has two coefficients. -/
def Ordered (form : LinearForm) : Prop :=
  form.coefficients.Pairwise fun a b => a.1.index < b.1.index

theorem isClosed_iff : form.isClosed = true ↔ ∀ x, x ∉ form.occurring := by
  rw [isClosed, List.isEmpty_iff, occurring, ← List.map_eq_nil_iff,
    List.eq_nil_iff_forall_not_mem]

theorem Ordered.nodup (h : form.Ordered) : form.occurring.Nodup := by
  refine List.pairwise_map.mpr (h.imp fun {a b} hab he => ?_)
  rw [he] at hab
  exact Nat.lt_irrefl _ hab

theorem coefficient?_eq_some_iff (h : form.Ordered) :
    form.coefficient? v = some c ↔ (v, c) ∈ form.coefficients :=
  lookup_eq_some_iff_mem h.nodup

theorem coefficient?_eq_none_iff : form.coefficient? v = none ↔ v ∉ form.occurring :=
  lookup_eq_none_iff_not_mem

theorem mem_occurring_addCoefficient : ∀ {terms : List (Variable × Regex)},
    x ∈ (addCoefficient v r terms).map (·.1) ↔ x = v ∨ x ∈ terms.map (·.1)
  | [] => by simp [addCoefficient]
  | (y, s) :: terms => by
    unfold addCoefficient
    split
    · rename_i h
      subst h
      simp
    · split
      · simp
      · simp only [List.map_cons, List.mem_cons, mem_occurring_addCoefficient]
        exact or_left_comm

theorem ordered_addCoefficient : ∀ {terms : List (Variable × Regex)},
    (terms.Pairwise fun a b => a.1.index < b.1.index) →
      (addCoefficient v r terms).Pairwise fun a b => a.1.index < b.1.index
  | [], _ => List.pairwise_singleton _ _
  | (y, s) :: terms, h => by
    obtain ⟨hy, hterms⟩ := List.pairwise_cons.mp h
    unfold addCoefficient
    split
    · exact List.pairwise_cons.mpr ⟨hy, hterms⟩
    · rename_i hne
      split
      · rename_i hlt
        refine List.pairwise_cons.mpr ⟨fun b hb => ?_, h⟩
        rcases List.mem_cons.mp hb with rfl | hb
        · exact hlt
        · exact Nat.lt_trans hlt (hy b hb)
      · rename_i hlt
        refine List.pairwise_cons.mpr ⟨fun b hb => ?_, ordered_addCoefficient hterms⟩
        have hb' : b.1 ∈ (addCoefficient v r terms).map (·.1) := List.mem_map_of_mem hb
        rcases mem_occurring_addCoefficient.mp hb' with hv | hb'
        · have hidx : v.index ≠ y.index := fun he => hne (congrArg Variable.mk he)
          show y.index < b.1.index
          rw [hv]
          omega
        · obtain ⟨b', hb'', he⟩ := List.mem_map.mp hb'
          exact he ▸ hy b' hb''

theorem mem_occurring_add {v : Option Variable} :
    x ∈ (form.add v r).occurring ↔ v = some x ∨ x ∈ form.occurring := by
  cases v with
  | none => simp [add, occurring]
  | some v =>
    rw [occurring, add, mem_occurring_addCoefficient, Option.some.injEq, eq_comm]
    rfl

theorem Ordered.add (h : form.Ordered) (v : Option Variable) (r : Regex) :
    (form.add v r).Ordered := by
  cases v with
  | none => exact h
  | some v => exact ordered_addCoefficient h

theorem mem_occurring_without : x ∈ (form.without v).occurring ↔ x ∈ form.occurring ∧ x ≠ v := by
  simp only [occurring, without, List.mem_map, List.mem_filter, decide_eq_true_eq]
  constructor
  · rintro ⟨a, ⟨ha, hv⟩, rfl⟩
    exact ⟨⟨a, ha, rfl⟩, hv⟩
  · rintro ⟨⟨a, ha, rfl⟩, hv⟩
    exact ⟨a, ⟨ha, hv⟩, rfl⟩

theorem Ordered.without (h : form.Ordered) (v : Variable) : (form.without v).Ordered :=
  List.Pairwise.filter _ h

theorem occurring_behind : (form.behind r).occurring = form.occurring := by
  rw [occurring, behind, List.map_map]
  rfl

theorem Ordered.behind (h : form.Ordered) (r : Regex) : (form.behind r).Ordered :=
  List.pairwise_map.mpr h

/-- The term of a variable and the other terms. -/
theorem language_of_coefficient (h : form.Ordered) (hc : form.coefficient? v = some c) :
    form.language L w ↔ c.before (L v) w ∨ (form.without v).language L w := by
  have hmem := (coefficient?_eq_some_iff h).mp hc
  rw [language_iff, language_iff, ← or_assoc]
  refine or_congr_left ⟨?_, ?_⟩
  · rintro ⟨x, d, hd, hw⟩
    by_cases hx : x = v
    · subst hx
      obtain rfl : d = c :=
        Option.some.inj (((coefficient?_eq_some_iff h).mpr hd).symm.trans hc)
      exact Or.inl hw
    · exact Or.inr ⟨x, d, List.mem_filter.mpr ⟨hd, by simpa using hx⟩, hw⟩
  · rintro (hw | ⟨x, d, hd, hw⟩)
    · exact ⟨v, c, hmem, hw⟩
    · exact ⟨x, d, (List.mem_filter.mp hd).1, hw⟩

/-! ## Resolving -/

theorem resolve_of_not_mem (h : v ∉ form.occurring) : form.resolve v = form := by
  unfold resolve
  rw [coefficient?_eq_none_iff.mpr h]

theorem resolve_of_coefficient (h : form.coefficient? v = some c) :
    form.resolve v = (form.without v).behind c.iterate := by
  unfold resolve
  rw [h]

theorem mem_occurring_resolve :
    x ∈ (form.resolve v).occurring ↔ x ∈ form.occurring ∧ x ≠ v := by
  cases hc : form.coefficient? v with
  | none =>
    have hv := coefficient?_eq_none_iff.mp hc
    rw [resolve_of_not_mem hv]
    refine (and_iff_left_of_imp ?_).symm
    rintro hx rfl
    exact hv hx
  | some c => rw [resolve_of_coefficient hc, occurring_behind, mem_occurring_without]

theorem Ordered.resolve (h : form.Ordered) (v : Variable) : (form.resolve v).Ordered := by
  cases hc : form.coefficient? v with
  | none => rwa [resolve_of_not_mem (coefficient?_eq_none_iff.mp hc)]
  | some c =>
    rw [resolve_of_coefficient hc]
    exact (h.without v).behind _

/-! ## Substituting -/

/-- Adds several terms with variables. -/
def addTerms (terms : List (Variable × Regex)) (form : LinearForm) : LinearForm :=
  terms.foldl (fun form t => form.add (some t.1) t.2) form

theorem language_addTerms : ∀ {terms : List (Variable × Regex)} {form : LinearForm},
    (form.addTerms terms).language L w ↔ termsLanguage terms L w ∨ form.language L w
  | [], form => by simp [addTerms, termsLanguage]
  | (x, s) :: terms, form => by
    show ((form.add (some x) s).addTerms terms).language L w ↔ _
    rw [language_addTerms, language_add_some, termsLanguage_cons, or_assoc]
    exact or_left_comm

theorem mem_occurring_addTerms : ∀ {terms : List (Variable × Regex)} {form : LinearForm},
    x ∈ (form.addTerms terms).occurring ↔ x ∈ terms.map (·.1) ∨ x ∈ form.occurring
  | [], form => by simp [addTerms]
  | (y, s) :: terms, form => by
    show x ∈ ((form.add (some y) s).addTerms terms).occurring ↔ _
    rw [mem_occurring_addTerms, mem_occurring_add, Option.some.injEq, List.map_cons,
      List.mem_cons, or_assoc, eq_comm (a := y)]
    exact or_left_comm

theorem Ordered.addTerms : ∀ (terms : List (Variable × Regex)) {form : LinearForm},
    form.Ordered → (form.addTerms terms).Ordered
  | [], _, h => h
  | (x, s) :: terms, _, h => Ordered.addTerms terms (h.add (some x) s)

/-- Adds all terms of another right hand side. -/
def addAll (form value : LinearForm) : LinearForm :=
  value.constant.toList.foldl (LinearForm.add · none ·) (form.addTerms value.coefficients)

theorem language_addAll :
    (form.addAll value).language L w ↔ value.language L w ∨ form.language L w := by
  show _ ↔ (termsLanguage value.coefficients L w ∨ Regex.languageOf value.constant w) ∨ _
  rw [or_assoc]
  unfold addAll
  cases value.constant with
  | none =>
    show (form.addTerms value.coefficients).language L w ↔ _ ∨ False ∨ _
    rw [language_addTerms, false_or]
  | some r =>
    show ((form.addTerms value.coefficients).add none r).language L w ↔ _
    rw [language_add_none, language_addTerms]
    exact or_left_comm

theorem occurring_addAll :
    (form.addAll value).occurring = (form.addTerms value.coefficients).occurring := by
  unfold addAll
  cases value.constant <;> rfl

theorem Ordered.addAll (h : form.Ordered) (value : LinearForm) : (form.addAll value).Ordered := by
  unfold LinearForm.addAll
  cases value.constant with
  | none => exact Ordered.addTerms _ h
  | some r => exact (Ordered.addTerms _ h).add none r

theorem substitute_of_not_mem (h : v ∉ form.occurring) : form.substitute v value = form := by
  unfold substitute
  rw [coefficient?_eq_none_iff.mpr h]

theorem substitute_of_coefficient (h : form.coefficient? v = some c) :
    form.substitute v value = (form.without v).addAll (value.behind c) := by
  unfold substitute
  rw [h]
  rfl

/-- **Substitution.** The coefficient of the variable stands in front of the words of the right
hand side that replaces it. -/
theorem language_substitute (hc : form.coefficient? v = some c) :
    (form.substitute v value).language L w ↔
      c.before (value.language L) w ∨ (form.without v).language L w := by
  rw [substitute_of_coefficient hc, language_addAll, language_behind]

theorem mem_occurring_substitute (h : x ∈ (form.substitute v value).occurring) :
    (x ∈ form.occurring ∧ x ≠ v) ∨ x ∈ value.occurring := by
  cases hc : form.coefficient? v with
  | none =>
    have hv := coefficient?_eq_none_iff.mp hc
    rw [substitute_of_not_mem hv] at h
    exact Or.inl ⟨h, fun he => hv (he ▸ h)⟩
  | some c =>
    rw [substitute_of_coefficient hc, occurring_addAll, mem_occurring_addTerms,
      mem_occurring_without] at h
    rcases h with h | h
    · exact Or.inr (occurring_behind ▸ h)
    · exact Or.inl h

theorem Ordered.substitute (h : form.Ordered) (v : Variable) (value : LinearForm) :
    (form.substitute v value).Ordered := by
  cases hc : form.coefficient? v with
  | none => rwa [substitute_of_not_mem (coefficient?_eq_none_iff.mp hc)]
  | some c =>
    rw [substitute_of_coefficient hc]
    exact (h.without v).addAll _

end LinearForm

end RegularLanguages
