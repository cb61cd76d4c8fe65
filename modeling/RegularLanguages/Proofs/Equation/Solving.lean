import RegularLanguages.Proofs.Equation.Elimination

/-!
# Solving systems of equations

A system without variables on its right hand sides has one solution, its constants. Elimination
leads to such a system in one round, and has kept the least solution on the way.

Results:
* `solved_spec`, `solveWithin_eq`: what solving ends with, whatever number of rounds is allowed.
* `constants_iff_language`: the constants solve a system without variables.
* **`solve_isLeastSolution`**: solving a system that has been read gives its least solution.
* **`solveWithin_eq_solve`**: the number of rounds allowed does not matter, if there is one.
-/

namespace RegularLanguages.EquationSystem

variable {S : EquationSystem} {L : Assignment} {v : Variable} {form : LinearForm}

theorem map_fst_constants (S : EquationSystem) : S.constants.values.map (·.1) = S.unknowns := by
  rw [constants, List.map_map]
  rfl

theorem get?_constants (hS : S.WellFormed) {r : Option Regex} :
    S.constants.get? v = some r ↔ ∃ form, (v, form) ∈ S.equations ∧ form.constant = r := by
  have hn : (S.constants.values.map Prod.fst).Nodup := by
    rw [map_fst_constants]
    exact hS.nodup
  rw [Solution.get?, lookup_eq_some_iff_mem hn, constants]
  simp only [List.mem_map, Prod.exists, Prod.mk.injEq]
  constructor
  · rintro ⟨_, form, hf, rfl, rfl⟩
    exact ⟨form, hf, rfl⟩
  · rintro ⟨form, hf, rfl⟩
    exact ⟨v, form, hf, rfl, rfl⟩

/-- The words that the constants give to a variable are those of its right hand side. -/
theorem constants_iff_language (hS : S.WellFormed) (hc : S.isClosed = true)
    (hf : (v, form) ∈ S.equations) {w : Word} :
    S.constants.assignment v w ↔ form.language L w := by
  have hclosed : form.isClosed = true :=
    LinearForm.isClosed_iff.mpr (isClosed_iff.mp hc v form hf)
  rw [LinearForm.language_of_isClosed hclosed]
  constructor
  · rintro ⟨r, hr, hw⟩
    obtain ⟨other, hm, rfl⟩ := (get?_constants hS).mp hr
    have hv := (lookup_eq_some_iff_mem hS.nodup).mpr hm
    rw [(lookup_eq_some_iff_mem hS.nodup).mpr hf] at hv
    rwa [Option.some.inj hv]
  · intro hw
    exact ⟨form.constant, (get?_constants hS).mpr ⟨form, hf, rfl⟩, hw⟩

/-- The system that is left when a system is solved in at least one round. -/
def solved (S : EquationSystem) : EquationSystem := if S.isClosed then S else S.round

theorem solved_spec (hS : S.WellFormed) :
    S.solved.WellFormed ∧ S.solved.isClosed = true ∧ S.solved.unknowns = S.unknowns ∧
      (∀ L, S.IsPreSolution L → S.solved.IsPreSolution L) ∧
      ∀ L, S.solved.IsSolution L → S.IsSolution L := by
  unfold solved
  split
  · rename_i hc
    exact ⟨hS, hc, rfl, fun _ => id, fun _ => id⟩
  · obtain ⟨hwf, hun, -, hpre, hsol⟩ := round_spec hS
    exact ⟨hwf, round_isClosed hS, hun, hpre, hsol⟩

theorem solveRounds_of_isClosed (hc : S.isClosed = true) (limit : Nat) :
    ∀ remaining, solveRounds limit remaining S = .ok S.constants
  | 0 => by rw [solveRounds, if_pos hc]
  | _ + 1 => by rw [solveRounds, if_pos hc]

theorem solveWithin_eq (hS : S.WellFormed) {n : Nat} (hn : 1 ≤ n) :
    S.solveWithin n = .ok S.solved.constants := by
  obtain ⟨n, rfl⟩ := Nat.exists_eq_add_of_le' hn
  unfold solveWithin solved
  by_cases hc : S.isClosed = true
  · rw [if_pos hc, solveRounds_of_isClosed hc]
  · rw [if_neg hc, solveRounds, if_neg hc, solveRounds_of_isClosed (round_isClosed hS)]

/-- The constants of the system that is left are the least solution. -/
theorem solved_isLeastSolution (hS : S.WellFormed) :
    S.IsLeastSolution S.solved.constants.assignment := by
  obtain ⟨hwf, hc, hun, hpre, hsol⟩ := solved_spec hS
  constructor
  · exact hsol _ fun v form hf w => constants_iff_language hwf hc hf
  · intro M hM v hv w hw
    rw [← hun] at hv
    obtain ⟨form, hf⟩ := exists_equation hv
    exact hpre M hM.isPreSolution v form hf w ((constants_iff_language hwf hc hf).mp hw)

/-- A variable without expression is one without words. -/
theorem get?_constants_eq_none_iff (hS : S.WellFormed) (hv : v ∈ S.unknowns) :
    S.constants.get? v = some none ↔ ∀ w, ¬ S.constants.assignment v w := by
  constructor
  · rintro h w ⟨r, hr, hw⟩
    rw [h] at hr
    obtain rfl := Option.some.inj hr
    exact hw
  · intro h
    obtain ⟨form, hf⟩ := exists_equation hv
    have hget : S.constants.get? v = some form.constant := (get?_constants hS).mpr ⟨form, hf, rfl⟩
    cases hc : form.constant with
    | none => rw [hget, hc]
    | some r =>
      obtain ⟨w, hw⟩ := Regex.exists_matches r
      exact absurd ⟨some r, hc ▸ hget, hw⟩ (h w)

/-- **Solving gives the least solution** of every system that has been read: the right hand sides
hold as equations, every other solution gives each variable at least the same words, and the
variables without expression are those without words. -/
theorem solve_isLeastSolution {text : String} (h : parse text = .ok S) :
    ∃ T, S.solve = .ok T ∧ S.IsLeastSolution T.assignment ∧
      ∀ v ∈ S.unknowns, (T.get? v = some none ↔ ∀ w, ¬ T.assignment v w) := by
  have hS := parse_wellFormed h
  obtain ⟨hwf, -, hun, -⟩ := solved_spec hS
  refine ⟨S.solved.constants, solveWithin_eq hS (by decide), solved_isLeastSolution hS, ?_⟩
  intro v hv
  exact get?_constants_eq_none_iff hwf (hun ▸ hv)

/-- The coefficient `a + ε` has the empty word; the least solution is `a* b`. -/
theorem isLeastSolution_of_nullable_coefficient :
    ∃ S, parse "x0 = (a + ε) x0 + b" = .ok S ∧ S.IsLeastSolution
      (Solution.assignment ⟨[(⟨0⟩, some (.concat (.star (.symbol 'a')) (.symbol 'b')))]⟩) := by
  let S : EquationSystem :=
    ⟨[(⟨0⟩, ⟨[(⟨0⟩, .union (.symbol 'a') .epsilon)], some (.symbol 'b')⟩)]⟩
  have hparse : parse "x0 = (a + ε) x0 + b" = .ok S := by rfl
  obtain ⟨T, hT, hleast, -⟩ := solve_isLeastSolution hparse
  have hsolve : S.solve = .ok ⟨[(⟨0⟩, some (.concat (.star (.symbol 'a')) (.symbol 'b')))]⟩ := by
    rfl
  obtain rfl := Except.ok.inj (hsolve.symm.trans hT)
  exact ⟨S, hparse, hleast⟩

/-- **The number of rounds allowed does not matter**, if there is one: the solution has the
variables of the system in order. Without a round, only a system in which no variable occurs on a
right hand side is solved. -/
theorem solveWithin_eq_solve {text : String} (h : parse text = .ok S) :
    (∃ T, T.values.map (·.1) = S.unknowns ∧ S.solve = .ok T ∧
      ∀ n, 1 ≤ n → S.solveWithin n = .ok T) ∧
    (S.solveWithin 0 = .error (.notClosed 0) ↔
      ∃ v form x c, (v, form) ∈ S.equations ∧ (x, c) ∈ form.coefficients) := by
  have hS := parse_wellFormed h
  obtain ⟨-, -, hun, -⟩ := solved_spec hS
  constructor
  · refine ⟨S.solved.constants, ?_, solveWithin_eq hS (by decide), fun n hn => solveWithin_eq hS hn⟩
    rw [map_fst_constants, hun]
  · have hzero : S.solveWithin 0 =
        if S.isClosed then .ok S.constants else .error (.notClosed 0) := rfl
    rw [hzero]
    by_cases hc : S.isClosed = true
    · rw [if_pos hc]
      refine iff_of_false (by simp) ?_
      rintro ⟨v, form, x, c, hf, hm⟩
      exact isClosed_iff.mp hc v form hf x (List.mem_map_of_mem hm)
    · rw [if_neg hc]
      refine iff_of_true rfl ?_
      rw [isClosed_iff] at hc
      push Not at hc
      obtain ⟨v, form, hf, x, hx⟩ := hc
      obtain ⟨⟨x, c⟩, hm, rfl⟩ := List.mem_map.mp hx
      exact ⟨v, form, x, c, hf, hm⟩

/-- Two variables that refer to each other: one round solves the system, none does not. -/
theorem solveWithin_eq_solve_of_cycle :
    ∃ S, parse "x1 = a x2\nx2 = b x1 + c" = .ok S ∧
      S.solveWithin 1 = S.solve ∧ S.solveWithin 0 = .error (.notClosed 0) := by
  let S : EquationSystem :=
    ⟨[(⟨1⟩, ⟨[(⟨2⟩, .symbol 'a')], none⟩), (⟨2⟩, ⟨[(⟨1⟩, .symbol 'b')], some (.symbol 'c')⟩)]⟩
  have hparse : parse "x1 = a x2\nx2 = b x1 + c" = .ok S := by rfl
  obtain ⟨⟨T, -, hT, hn⟩, hzero⟩ := solveWithin_eq_solve hparse
  refine ⟨S, hparse, (hn 1 (by decide)).trans hT.symm, hzero.mpr ?_⟩
  exact ⟨_, _, _, _, List.mem_cons_self, List.mem_cons_self⟩

end RegularLanguages.EquationSystem
