import Mathlib.Data.List.Forall2
import RegularLanguages.Proofs.Equation.Solving

/-!
# Systems with the same meaning

Two systems mean the same if they have the same variables in the same order and every variable
has coefficients and a constant part of the same languages. What the expressions look like does
not matter for the solutions.

Results:
* `language_iff_coefficient?`: a right hand side by the languages of its coefficients.
* `SameMeaning.isSolution_iff`: the same assignments are solutions.
* **`SameMeaning.solve`**: solving gives every variable the same language.
-/

namespace RegularLanguages

variable {L : Assignment} {w : Word}

/-- Every entry of the one list has its partner in the other one. -/
theorem exists_of_forall₂ {α β : Type} {R : α → β → Prop} : ∀ {l : List α} {m : List β},
    List.Forall₂ R l m → ∀ a ∈ l, ∃ b ∈ m, R a b
  | _, _, .nil, a, ha => absurd ha List.not_mem_nil
  | _, _, .cons hab hlm, a, ha => by
    rcases List.mem_cons.mp ha with rfl | ha
    · exact ⟨_, List.mem_cons_self, hab⟩
    · obtain ⟨b, hb, hr⟩ := exists_of_forall₂ hlm a ha
      exact ⟨b, List.mem_cons_of_mem _ hb, hr⟩

namespace LinearForm

variable {form form' : LinearForm}

/-- The coefficients of each variable and the constant parts have the same languages. A variable
that does not occur and a missing constant part count as empty. -/
structure SameMeaning (form form' : LinearForm) : Prop where
  coefficient : ∀ x w, Regex.languageOf (form.coefficient? x) w ↔
    Regex.languageOf (form'.coefficient? x) w
  constant : ∀ w, Regex.languageOf form.constant w ↔ Regex.languageOf form'.constant w

/-- The words of a right hand side, by the languages of its coefficients. -/
theorem language_iff_coefficient? (h : form.Ordered) : form.language L w ↔
    (∃ x u t, Regex.languageOf (form.coefficient? x) u ∧ L x t ∧ u ++ t = w) ∨
      Regex.languageOf form.constant w := by
  refine or_congr_left ⟨?_, ?_⟩
  · rintro ⟨x, c, hc, u, t, hu, ht, he⟩
    refine ⟨x, u, t, ?_, ht, he⟩
    rw [(coefficient?_eq_some_iff h).mpr hc]
    exact hu
  · rintro ⟨x, u, t, hu, ht, he⟩
    cases hc : form.coefficient? x with
    | none =>
      rw [hc] at hu
      exact hu.elim
    | some c =>
      rw [hc] at hu
      exact ⟨x, c, (coefficient?_eq_some_iff h).mp hc, u, t, hu, ht, he⟩

theorem SameMeaning.language (h : form.SameMeaning form') (ho : form.Ordered)
    (ho' : form'.Ordered) : form.language L w ↔ form'.language L w := by
  rw [language_iff_coefficient? ho, language_iff_coefficient? ho', h.constant w]
  simp only [h.coefficient]

end LinearForm

namespace EquationSystem

variable {S T : EquationSystem} {v : Variable} {form : LinearForm}

/-- The same variables in the same order, with right hand sides of the same meaning. -/
def SameMeaning (S T : EquationSystem) : Prop :=
  List.Forall₂ (fun e f => e.1 = f.1 ∧ e.2.SameMeaning f.2) S.equations T.equations

theorem SameMeaning.symm (h : S.SameMeaning T) : T.SameMeaning S := by
  refine List.Forall₂.flip (List.Forall₂.imp ?_ h)
  rintro e f ⟨hv, hform⟩
  exact ⟨hv.symm, ⟨fun x w => (hform.coefficient x w).symm, fun w => (hform.constant w).symm⟩⟩

theorem SameMeaning.unknowns_eq (h : S.SameMeaning T) : S.unknowns = T.unknowns := by
  have heq : List.Forall₂ (· = ·) S.unknowns T.unknowns := by
    refine List.forall₂_map_left_iff.mpr (List.forall₂_map_right_iff.mpr ?_)
    exact List.Forall₂.imp (fun _ _ he => he.1) h
  rwa [List.forall₂_eq_eq_eq] at heq

/-- Every equation has one of the same meaning in the other system. -/
theorem SameMeaning.exists_equation (h : S.SameMeaning T) (hf : (v, form) ∈ S.equations) :
    ∃ form', (v, form') ∈ T.equations ∧ form.SameMeaning form' := by
  obtain ⟨f, hf', rfl, hmeaning⟩ := exists_of_forall₂ h _ hf
  exact ⟨f.2, hf', hmeaning⟩

theorem SameMeaning.isSolution (h : S.SameMeaning T) (hS : S.WellFormed) (hT : T.WellFormed)
    (hL : T.IsSolution L) : S.IsSolution L := by
  intro v form hf w
  obtain ⟨form', hf', hmeaning⟩ := h.exists_equation hf
  rw [hL v form' hf' w]
  exact (hmeaning.language (hS.ordered v form hf) (hT.ordered v form' hf')).symm

/-- **Systems with the same meaning have the same solutions.** -/
theorem SameMeaning.isSolution_iff (h : S.SameMeaning T) (hS : S.WellFormed)
    (hT : T.WellFormed) : S.IsSolution L ↔ T.IsSolution L :=
  ⟨h.symm.isSolution hT hS, h.isSolution hS hT⟩

/-- **Solving systems with the same meaning** gives every variable the same language. -/
theorem SameMeaning.solve (h : S.SameMeaning T) (hS : S.WellFormed) (hT : T.WellFormed) :
    ∃ X Y, S.solve = .ok X ∧ T.solve = .ok Y ∧
      ∀ v ∈ S.unknowns, ∀ w, X.assignment v w ↔ Y.assignment v w := by
  obtain ⟨hX, hleastX⟩ := solved_isLeastSolution hS
  obtain ⟨hY, hleastY⟩ := solved_isLeastSolution hT
  refine ⟨S.solved.constants, T.solved.constants, solveWithin_eq hS (by decide),
    solveWithin_eq hT (by decide), fun v hv w => ⟨?_, ?_⟩⟩
  · exact hleastX _ ((h.isSolution_iff hS hT).mpr hY) v hv w
  · exact hleastY _ ((h.isSolution_iff hS hT).mp hX) v (h.unknowns_eq ▸ hv) w

end EquationSystem

end RegularLanguages
