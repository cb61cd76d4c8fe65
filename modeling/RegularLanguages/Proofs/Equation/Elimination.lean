import RegularLanguages.Proofs.Equation.Parsing

/-!
# Elimination keeps the least solution

An assignment that gives every variable at least the words of its right hand side still does so
after a variable has been eliminated, and a solution of the system after the elimination is a
solution of the system before it. So the least solution can be read off a system without
variables on its right hand sides, however nullable the coefficients are: Arden's lemma is needed
for least solutions only.

A variable that has been eliminated does not come back, since what replaces other variables is
free of it. So one round frees all right hand sides of all variables.

Results:
* `before_iterate_le`, `before_iterate_iff`: Arden's lemma, least and as an equation.
* `eliminate_isPreSolution`, **`isSolution_of_eliminate`**: what one elimination keeps.
* `eliminate_free`, `foldl_eliminate_spec`: what a run of eliminations keeps and frees.
* **`round_isClosed`**: one round suffices.
-/

namespace RegularLanguages

/-! ## Arden's lemma -/

namespace Regex

variable {a : Regex} {M N : Language} {w : Word}

/-- `A* N` is contained in every language that contains `N` and, with a language, `A` in front
of it. -/
theorem before_iterate_le (hN : ∀ w, N w → M w) (ha : ∀ w, a.before M w → M w)
    (hw : a.iterate.before N w) : M w := by
  obtain ⟨u, t, hu, ht, rfl⟩ := hw
  rw [matches_iterate] at hu
  induction hu using Matches.star_induction with
  | nil => exact hN t ht
  | append u v hu _ ih => exact ha _ ⟨u, v ++ t, hu, ih, (List.append_assoc u v t).symm⟩

/-- `A* N` satisfies the equation `X = N + A X`. -/
theorem before_iterate_iff :
    a.iterate.before N w ↔ N w ∨ a.before (a.iterate.before N) w := by
  simp only [before, matches_iterate]
  constructor
  · rintro ⟨u, t, hu, ht, rfl⟩
    rcases matches_star.mp hu with rfl | ⟨x, y, hx, hy, rfl⟩
    · exact Or.inl ht
    · exact Or.inr ⟨x, y ++ t, hx, ⟨y, t, hy, ht, rfl⟩, (List.append_assoc x y t).symm⟩
  · rintro (ht | ⟨x, _, hx, ⟨y, t, hy, ht, rfl⟩, rfl⟩)
    · exact ⟨[], w, .starNil, ht, rfl⟩
    · exact ⟨x ++ y, t, .starAppend hx hy, ht, List.append_assoc x y t⟩

end Regex

/-! ## One right hand side -/

namespace LinearForm

variable {form value : LinearForm} {L : Assignment} {v : Variable} {w : Word}

/-- Resolving stays within every language that contains the words of the right hand side. -/
theorem resolve_le (h : form.Ordered) (hv : ∀ w, form.language L w → L v w)
    (hw : (form.resolve v).language L w) : L v w := by
  cases hc : form.coefficient? v with
  | none =>
    rw [resolve_of_not_mem (coefficient?_eq_none_iff.mp hc)] at hw
    exact hv w hw
  | some a =>
    rw [resolve_of_coefficient hc, language_behind] at hw
    refine Regex.before_iterate_le (fun w hw => hv w ?_) (fun w hw => hv w ?_) hw
    · exact (language_of_coefficient h hc).mpr (Or.inr hw)
    · exact (language_of_coefficient h hc).mpr (Or.inl hw)

/-- What satisfies the resolved equation satisfies the equation. -/
theorem language_iff_of_resolve (h : form.Ordered)
    (hv : ∀ w, L v w ↔ (form.resolve v).language L w) : L v w ↔ form.language L w := by
  cases hc : form.coefficient? v with
  | none =>
    rw [resolve_of_not_mem (coefficient?_eq_none_iff.mp hc)] at hv
    exact hv w
  | some a =>
    have hv' (w : Word) : L v w ↔ a.iterate.before ((form.without v).language L) w := by
      rw [hv w, resolve_of_coefficient hc, language_behind]
    rw [language_of_coefficient h hc, hv' w, Regex.before_iterate_iff, or_comm]
    exact or_congr_left (Regex.before_congr fun w => (hv' w).symm)

theorem substitute_le (h : form.Ordered) (hv : ∀ w, value.language L w → L v w)
    (hw : (form.substitute v value).language L w) : form.language L w := by
  cases hc : form.coefficient? v with
  | none => rwa [substitute_of_not_mem (coefficient?_eq_none_iff.mp hc)] at hw
  | some c =>
    rw [language_of_coefficient h hc]
    exact ((language_substitute hc).mp hw).imp_left (Regex.before_mono hv)

theorem language_substitute_of_iff (h : form.Ordered)
    (hv : ∀ w, L v w ↔ value.language L w) :
    (form.substitute v value).language L w ↔ form.language L w := by
  cases hc : form.coefficient? v with
  | none => rw [substitute_of_not_mem (coefficient?_eq_none_iff.mp hc)]
  | some c =>
    rw [language_of_coefficient h hc, language_substitute hc]
    exact or_congr_left (Regex.before_congr fun w => (hv w).symm)

theorem language_of_isClosed (h : form.isClosed = true) :
    form.language L w ↔ Regex.languageOf form.constant w := by
  rw [language_iff]
  refine or_iff_right ?_
  rintro ⟨x, c, hc, _⟩
  exact isClosed_iff.mp h x (List.mem_map_of_mem hc)

end LinearForm

namespace EquationSystem

variable {S : EquationSystem} {L : Assignment} {v : Variable} {form : LinearForm}

/-! ## One elimination -/

theorem exists_equation (h : v ∈ S.unknowns) : ∃ form, (v, form) ∈ S.equations := by
  obtain ⟨⟨_, form⟩, hm, rfl⟩ := List.mem_map.mp h
  exact ⟨form, hm⟩

theorem eliminate_eq (hS : S.WellFormed) (hf : (v, form) ∈ S.equations) :
    S.eliminate v = ⟨S.equations.map fun (w, other) =>
      (w, if w = v then form.resolve v else other.substitute v (form.resolve v))⟩ := by
  unfold eliminate
  rw [(lookup_eq_some_iff_mem hS.nodup).mpr hf]

/-- The equations after the elimination of a variable. -/
theorem mem_equations_eliminate (hS : S.WellFormed) (hf : (v, form) ∈ S.equations) {x : Variable}
    {g : LinearForm} :
    (x, g) ∈ (S.eliminate v).equations ↔
      (x = v ∧ g = form.resolve v) ∨
        ∃ other, x ≠ v ∧ (x, other) ∈ S.equations ∧ g = other.substitute v (form.resolve v) := by
  rw [eliminate_eq hS hf]
  simp only [List.mem_map, Prod.exists, Prod.mk.injEq]
  constructor
  · rintro ⟨x, other, hm, rfl, rfl⟩
    by_cases hx : x = v
    · rw [if_pos hx]
      exact Or.inl ⟨hx, rfl⟩
    · rw [if_neg hx]
      exact Or.inr ⟨other, hx, hm, rfl⟩
  · rintro (⟨rfl, rfl⟩ | ⟨other, hx, hm, rfl⟩)
    · exact ⟨x, form, hf, rfl, if_pos rfl⟩
    · exact ⟨x, other, hm, rfl, if_neg hx⟩

theorem unknowns_eliminate (S : EquationSystem) (v : Variable) :
    (S.eliminate v).unknowns = S.unknowns := by
  unfold eliminate
  split
  · rfl
  · rw [unknowns, List.map_map]
    rfl

theorem eliminate_wellFormed (hS : S.WellFormed) (hv : v ∈ S.unknowns) :
    (S.eliminate v).WellFormed := by
  obtain ⟨form, hf⟩ := exists_equation hv
  have hord := hS.ordered v form hf
  refine ⟨?_, fun x g hg => ?_, fun x g hg y hy => ?_⟩
  · rw [unknowns_eliminate]
    exact hS.nodup
  · rcases (mem_equations_eliminate hS hf).mp hg with ⟨rfl, rfl⟩ | ⟨other, _, hm, rfl⟩
    · exact hord.resolve _
    · exact (hS.ordered x other hm).substitute _ _
  · rw [unknowns_eliminate]
    have hresolve (hy : y ∈ (form.resolve v).occurring) : y ∈ S.unknowns :=
      hS.defined v form hf y (LinearForm.mem_occurring_resolve.mp hy).1
    rcases (mem_equations_eliminate hS hf).mp hg with ⟨rfl, rfl⟩ | ⟨other, _, hm, rfl⟩
    · exact hresolve hy
    · rcases LinearForm.mem_occurring_substitute hy with ⟨hy, _⟩ | hy
      · exact hS.defined x other hm y hy
      · exact hresolve hy

/-- Every variable has at least the words of its right hand side. -/
def IsPreSolution (S : EquationSystem) (L : Assignment) : Prop :=
  ∀ v form, (v, form) ∈ S.equations → ∀ w, form.language L w → L v w

theorem IsSolution.isPreSolution (h : S.IsSolution L) : S.IsPreSolution L :=
  fun v form hf w => (h v form hf w).mpr

theorem eliminate_isPreSolution (hS : S.WellFormed) (hv : v ∈ S.unknowns)
    (h : S.IsPreSolution L) : (S.eliminate v).IsPreSolution L := by
  obtain ⟨form, hf⟩ := exists_equation hv
  have hvalue (w : Word) : (form.resolve v).language L w → L v w :=
    LinearForm.resolve_le (hS.ordered v form hf) (h v form hf)
  intro x g hg w hw
  rcases (mem_equations_eliminate hS hf).mp hg with ⟨rfl, rfl⟩ | ⟨other, _, hm, rfl⟩
  · exact hvalue w hw
  · exact h x other hm w (LinearForm.substitute_le (hS.ordered x other hm) hvalue hw)

/-- **Elimination adds no solutions.** -/
theorem isSolution_of_eliminate (hS : S.WellFormed) (hv : v ∈ S.unknowns)
    (h : (S.eliminate v).IsSolution L) : S.IsSolution L := by
  obtain ⟨form, hf⟩ := exists_equation hv
  have hmem {x : Variable} {g : LinearForm} := mem_equations_eliminate hS hf (x := x) (g := g)
  have hvalue (w : Word) : L v w ↔ (form.resolve v).language L w :=
    h v _ (hmem.mpr (Or.inl ⟨rfl, rfl⟩)) w
  intro x other hm w
  by_cases hx : x = v
  · subst hx
    obtain rfl : other = form :=
      Option.some.inj (((lookup_eq_some_iff_mem hS.nodup).mpr hm).symm.trans
        ((lookup_eq_some_iff_mem hS.nodup).mpr hf))
    exact LinearForm.language_iff_of_resolve (hS.ordered x other hm) hvalue
  · rw [h x _ (hmem.mpr (Or.inr ⟨other, hx, hm, rfl⟩)) w]
    exact LinearForm.language_substitute_of_iff (hS.ordered x other hm) hvalue

/-! ## A round of eliminations -/

/-- None of the variables occurs on a right hand side. -/
def Free (S : EquationSystem) (done : List Variable) : Prop :=
  ∀ v form, (v, form) ∈ S.equations → ∀ x ∈ form.occurring, x ∉ done

/-- A variable that has been eliminated does not come back. -/
theorem eliminate_free (hS : S.WellFormed) (hv : v ∈ S.unknowns) {done : List Variable}
    (h : S.Free done) : (S.eliminate v).Free (v :: done) := by
  obtain ⟨form, hf⟩ := exists_equation hv
  have hresolve : ∀ x ∈ (form.resolve v).occurring, x ∉ v :: done := by
    intro x hx
    obtain ⟨hx, hne⟩ := LinearForm.mem_occurring_resolve.mp hx
    rw [List.mem_cons, not_or]
    exact ⟨hne, h v form hf x hx⟩
  intro x g hg y hy
  rcases (mem_equations_eliminate hS hf).mp hg with ⟨rfl, rfl⟩ | ⟨other, _, hm, rfl⟩
  · exact hresolve y hy
  · rcases LinearForm.mem_occurring_substitute hy with ⟨hy, hne⟩ | hy
    · rw [List.mem_cons, not_or]
      exact ⟨hne, h x other hm y hy⟩
    · exact hresolve y hy

/-- What any number of eliminations keeps, and that they free the right hand sides of the
variables eliminated. -/
theorem foldl_eliminate_spec : ∀ {vs done : List Variable} {S : EquationSystem}, S.WellFormed →
    (∀ v ∈ vs, v ∈ S.unknowns) → S.Free done →
      (vs.foldl eliminate S).WellFormed ∧ (vs.foldl eliminate S).unknowns = S.unknowns ∧
      (vs.foldl eliminate S).Free (vs ++ done) ∧
      (∀ L, S.IsPreSolution L → (vs.foldl eliminate S).IsPreSolution L) ∧
      ∀ L, (vs.foldl eliminate S).IsSolution L → S.IsSolution L
  | [], _, _, hS, _, h => ⟨hS, rfl, h, fun _ => id, fun _ => id⟩
  | v :: vs, done, S, hS, hvs, h => by
    have hv : v ∈ S.unknowns := hvs v List.mem_cons_self
    have hvs' : ∀ x ∈ vs, x ∈ (S.eliminate v).unknowns := by
      intro x hx
      rw [unknowns_eliminate]
      exact hvs x (List.mem_cons_of_mem v hx)
    obtain ⟨hwf, hun, hfree, hpre, hsol⟩ := foldl_eliminate_spec (eliminate_wellFormed hS hv)
      hvs' (eliminate_free hS hv h)
    rw [List.foldl_cons]
    refine ⟨hwf, hun.trans (unknowns_eliminate S v), fun x g hg y hy hmem => ?_,
      fun L hL => hpre L (eliminate_isPreSolution hS hv hL),
      fun L hL => isSolution_of_eliminate hS hv (hsol L hL)⟩
    refine hfree x g hg y hy ?_
    simp only [List.cons_append, List.mem_cons, List.mem_append] at hmem ⊢
    tauto

theorem round_spec (hS : S.WellFormed) :
    S.round.WellFormed ∧ S.round.unknowns = S.unknowns ∧ S.round.Free (S.unknowns.reverse ++ []) ∧
      (∀ L, S.IsPreSolution L → S.round.IsPreSolution L) ∧
      ∀ L, S.round.IsSolution L → S.IsSolution L :=
  foldl_eliminate_spec hS (fun _ hv => List.mem_reverse.mp hv)
    fun _ _ _ _ _ => List.not_mem_nil

theorem isClosed_iff : S.isClosed = true ↔
    ∀ v form, (v, form) ∈ S.equations → ∀ x, x ∉ form.occurring := by
  simp only [isClosed, List.all_eq_true, LinearForm.isClosed_iff, Prod.forall]

/-- **One round suffices**: it frees all right hand sides of all variables. -/
theorem round_isClosed (hS : S.WellFormed) : S.round.isClosed = true := by
  obtain ⟨hwf, hun, hfree, -⟩ := round_spec hS
  refine isClosed_iff.mpr fun v form hf x hx => hfree v form hf x hx ?_
  rw [List.append_nil, List.mem_reverse, ← hun]
  exact hwf.defined v form hf x hx

end EquationSystem

end RegularLanguages
