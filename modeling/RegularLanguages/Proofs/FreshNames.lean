import Mathlib.Data.List.Perm.Subperm
import Std.Data.HashSet.Lemmas
import Std.Data.String.ToNat
import RegularLanguages.FreshNames

/-!
# Supplied names are new

The search for an unused name tries more candidates than there are names in use, and the
candidates are pairwise different, so it never runs out of them.

A supply is meant to go on until it has found a name, without a bound. `Finds`, `Answers` and
`AnswersAll` say this turn by turn, so that there is a derivation only if the search ends; it always
does, and ends where the bounded search does.

Results:
* `firstUnused_not_mem`: the search ends at a candidate that is not in use.
* `finds_firstUnused`, `answers_iff`, **`answersAll_iff`**: the search without a bound.
* **`claim_not_mem`**, **`fresh_not_mem`**: a claimed or numbered name was not in use.
* **`nodup_answerAll`**, **`nodup_claimAll`**: names handed out one after the other are pairwise
  different.
* **`answersAll_iff_and_supplied`**: what calls to a supply give, in any order.
-/

namespace RegularLanguages

theorem State.numbered_injective {stem : String} {i j : Nat}
    (h : State.numbered stem i = State.numbered stem j) : i = j := by
  have hname : stem ++ Nat.repr i = stem ++ Nat.repr j := congrArg State.name h
  exact Nat.repr_injective ((String.append_right_inj stem).mp hname)

namespace FreshNames

variable {names names' : FreshNames} {used : Std.HashSet State} {candidate : Nat → State}
  {r : Request} {q : State} {i j k : Nat}

theorem variant_injective {q : State} {i j : Nat} (h : variant q i = variant q j) : i = j := by
  have hname : q.name ++ "'" ++ Nat.repr i = q.name ++ "'" ++ Nat.repr j :=
    congrArg State.name h
  exact Nat.repr_injective ((String.append_right_inj _).mp hname)

/-- The search ends at an unused candidate, or all that it may try are in use. -/
theorem firstUnused_spec (used : Std.HashSet State) (candidate : Nat → State) :
    ∀ fuel i, candidate (firstUnused used candidate fuel i) ∉ used ∨
      ∀ j < fuel, candidate (i + j) ∈ used
  | 0, i => Or.inr fun j hj => absurd hj (Nat.not_lt_zero j)
  | fuel + 1, i => by
    unfold firstUnused
    split
    · rename_i hi
      rcases firstUnused_spec used candidate fuel (i + 1) with h | h
      · exact Or.inl h
      · refine Or.inr fun j hj => ?_
        cases j with
        | zero => exact hi
        | succ j => exact Nat.succ_add_eq_add_succ i j ▸ h j (by omega)
    · rename_i hi
      exact Or.inl hi

theorem firstUnused_not_mem (used : Std.HashSet State) {candidate : Nat → State}
    (hc : ∀ i j, candidate i = candidate j → i = j) (i : Nat) :
    candidate (firstUnused used candidate (used.size + 1) i) ∉ used := by
  rcases firstUnused_spec used candidate (used.size + 1) i with h | h
  · exact h
  · -- more candidates in use than names in use
    have hn : ((List.range (used.size + 1)).map fun j => candidate (i + j)).Nodup := by
      refine List.Pairwise.map _ (fun a b hab he => hab ?_) List.nodup_range
      have := hc _ _ he
      omega
    have hsub : ((List.range (used.size + 1)).map fun j => candidate (i + j)) ⊆ used.toList := by
      intro q hq
      obtain ⟨j, hj, rfl⟩ := List.mem_map.mp hq
      exact Std.HashSet.mem_toList.mpr (h j (List.mem_range.mp hj))
    have hle := (List.subperm_of_subset hn hsub).length_le
    rw [List.length_map, List.length_range, Std.HashSet.length_toList] at hle
    omega

/-- **A claimed name is new.** -/
theorem claim_not_mem (names : FreshNames) (q : State) : (names.claim q).1 ∉ names.used := by
  simp only [claim]
  split
  · exact firstUnused_not_mem names.used (fun _ _ => variant_injective) 1
  · rename_i h
    exact h

theorem mem_used_claim {names : FreshNames} {q p : State} :
    p ∈ (names.claim q).2.used ↔ p = (names.claim q).1 ∨ p ∈ names.used := by
  simp only [claim, Std.HashSet.mem_insert, beq_iff_eq]
  exact or_congr_left eq_comm

/-- **A numbered name is new.** -/
theorem fresh_not_mem (names : FreshNames) (stem : String) :
    (names.fresh stem).1 ∉ names.used :=
  firstUnused_not_mem names.used (fun _ _ => State.numbered_injective) names.counter

theorem mem_used_fresh {names : FreshNames} {stem : String} {p : State} :
    p ∈ (names.fresh stem).2.used ↔ p = (names.fresh stem).1 ∨ p ∈ names.used := by
  simp only [fresh, Std.HashSet.mem_insert, beq_iff_eq]
  exact or_congr_left eq_comm

/-! ## Requests of both kinds -/

theorem answer_not_mem (names : FreshNames) : ∀ r : Request, (names.answer r).1 ∉ names.used
  | .fresh stem => fresh_not_mem names stem
  | .claim q => claim_not_mem names q

theorem mem_used_answer {names : FreshNames} {p : State} : ∀ {r : Request},
    p ∈ (names.answer r).2.used ↔ p = (names.answer r).1 ∨ p ∈ names.used
  | .fresh _ => mem_used_fresh
  | .claim _ => mem_used_claim

theorem not_mem_used_of_mem_answerAll {p : State} : ∀ {rs : List Request} {names : FreshNames},
    p ∈ names.answerAll rs → p ∉ names.used
  | [], _, h => absurd h List.not_mem_nil
  | r :: rs, names, h => by
    rcases List.mem_cons.mp h with rfl | h
    · exact answer_not_mem names r
    · exact fun hp => not_mem_used_of_mem_answerAll h (mem_used_answer.mpr (Or.inr hp))

/-- **Names handed out one after the other are pairwise different.** -/
theorem nodup_answerAll : ∀ (rs : List Request) (names : FreshNames), (names.answerAll rs).Nodup
  | [], _ => List.nodup_nil
  | r :: rs, names => by
    refine List.nodup_cons.mpr ⟨fun h => ?_, nodup_answerAll rs _⟩
    exact not_mem_used_of_mem_answerAll h (mem_used_answer.mpr (Or.inl rfl))

/-- **Names claimed one after the other are pairwise different.** -/
theorem nodup_claimAll (qs : List State) (names : FreshNames) : (names.claimAll qs).Nodup :=
  claimAll_eq_answerAll names qs ▸ nodup_answerAll _ names

theorem claim_eq_self (h : q ∉ names.used) : (names.claim q).1 = q := if_neg h

/-- A requested name is handed out unless it is in use or has been handed out before. -/
theorem getElem?_answerAll_claim : ∀ (rs : List Request) {names : FreshNames} {i : Nat},
    rs[i]? = some (.claim q) → q ∉ names.used → q ∉ (names.answerAll rs).take i →
      (names.answerAll rs)[i]? = some q
  | [], _, _, h, _, _ => by simp at h
  | _ :: _, _, 0, h, hused, _ => by
    cases h
    exact congrArg some (claim_eq_self hused)
  | _ :: rs, _, _ + 1, h, hused, hbefore => by
    obtain ⟨hne, hbefore⟩ := not_or.mp (mt List.mem_cons.mpr hbefore)
    exact getElem?_answerAll_claim rs h
      (fun hq => (mem_used_answer.mp hq).elim hne hused) hbefore

/-- A numbered name is the stem with a number behind it. -/
theorem getElem?_answerAll_fresh {stem : String} : ∀ (rs : List Request) {names : FreshNames}
    {i : Nat}, rs[i]? = some (.fresh stem) →
      ∃ n, (names.answerAll rs)[i]? = some (.numbered stem n)
  | [], _, _, h => by simp at h
  | _ :: _, _, 0, h => by
    cases h
    exact ⟨_, rfl⟩
  | _ :: rs, _, _ + 1, h => getElem?_answerAll_fresh rs h

theorem mem_used_avoiding {taken : List State} {p : State} :
    p ∈ (avoiding taken).used ↔ p ∈ taken := by
  rw [avoiding, Std.HashSet.mem_ofList, List.contains_iff_mem]

/-- A name claimed from a supply that avoids some names is none of them. -/
theorem claim_avoiding_not_mem (taken : List State) (q : State) :
    ((avoiding taken).claim q).1 ∉ taken := fun h =>
  claim_not_mem (avoiding taken) q (mem_used_avoiding.mpr h)

/-- What a supply that avoids the names `taken` is to hand out for the requests `rs`. -/
structure Supplied (taken : List State) (rs : List Request) (qs : List State) : Prop where
  length_eq : qs.length = rs.length
  nodup : qs.Nodup
  not_taken : ∀ q ∈ qs, q ∉ taken
  claimed : ∀ (i : Nat) (q : State), rs[i]? = some (Request.claim q) → q ∉ taken →
    q ∉ qs.take i → qs[i]? = some q
  numbered : ∀ (i : Nat) (stem : String), rs[i]? = some (Request.fresh stem) →
    ∃ n, qs[i]? = some (State.numbered stem n)

theorem supplied_answerAll (taken : List State) (rs : List Request) :
    Supplied taken rs ((avoiding taken).answerAll rs) where
  length_eq := length_answerAll _ rs
  nodup := nodup_answerAll rs _
  not_taken _ hq := mt mem_used_avoiding.mpr (not_mem_used_of_mem_answerAll hq)
  claimed _ _ hr hq := getElem?_answerAll_claim rs hr (mt mem_used_avoiding.mp hq)
  numbered _ _ := getElem?_answerAll_fresh rs

/-! ## Without a bound -/

/-- The search for an unused candidate from number `i` on ends at number `j`. Each rule is one
turn of a loop that nothing bounds. -/
inductive Finds (used : Std.HashSet State) (candidate : Nat → State) : Nat → Nat → Prop
  | unused {i : Nat} (h : candidate i ∉ used) : Finds used candidate i i
  | next {i j : Nat} (h : candidate i ∈ used) (hj : Finds used candidate (i + 1) j) :
    Finds used candidate i j

theorem Finds.unique (hj : Finds used candidate i j) (hk : Finds used candidate i k) : j = k := by
  induction hj with
  | unused h =>
    cases hk with
    | unused => rfl
    | next h' _ => exact absurd h' h
  | next h _ ih =>
    cases hk with
    | unused h' => exact absurd h h'
    | next _ hk => exact ih hk

/-- A bounded search that ends at an unused candidate ends where the one without a bound does. -/
theorem finds_of_not_mem : ∀ {fuel i : Nat}, candidate (firstUnused used candidate fuel i) ∉ used →
    Finds used candidate i (firstUnused used candidate fuel i)
  | 0, _, h => .unused h
  | fuel + 1, i, h => by
    unfold firstUnused at h ⊢
    by_cases hi : candidate i ∈ used
    · rw [if_pos hi] at h ⊢
      exact .next hi (finds_of_not_mem h)
    · rw [if_neg hi]
      exact .unused hi

/-- **The search ends** when the candidates are pairwise different. -/
theorem finds_firstUnused (used : Std.HashSet State) {candidate : Nat → State}
    (hc : ∀ i j, candidate i = candidate j → i = j) (i : Nat) :
    Finds used candidate i (firstUnused used candidate (used.size + 1) i) :=
  finds_of_not_mem (firstUnused_not_mem used hc i)

/-- The answer to a request and the supply behind it, with searches that nothing bounds. -/
inductive Answers : FreshNames → Request → State → FreshNames → Prop
  | fresh {names : FreshNames} {stem : String} {i : Nat}
    (h : Finds names.used (State.numbered stem) names.counter i) :
    Answers names (.fresh stem) (.numbered stem i) ⟨names.used.insert (.numbered stem i), i + 1⟩
  | unused {names : FreshNames} {q : State} (h : q ∉ names.used) :
    Answers names (.claim q) q { names with used := names.used.insert q }
  | variant {names : FreshNames} {q : State} {i : Nat} (h : q ∈ names.used)
    (hi : Finds names.used (variant q) 1 i) :
    Answers names (.claim q) (variant q i) { names with used := names.used.insert (variant q i) }

theorem answers_answer (names : FreshNames) : ∀ r : Request,
    Answers names r (names.answer r).1 (names.answer r).2
  | .fresh _ => .fresh (finds_firstUnused _ (fun _ _ => State.numbered_injective) _)
  | .claim q => by
    by_cases h : q ∈ names.used
    · simp only [answer, claim, if_pos h]
      exact .variant h (finds_firstUnused _ (fun _ _ => variant_injective) _)
    · simp only [answer, claim, if_neg h]
      exact .unused h

theorem Answers.unique {q' : State} {names'' : FreshNames} (h : Answers names r q names')
    (h' : Answers names r q' names'') : q = q' ∧ names' = names'' := by
  cases h with
  | fresh hi =>
    cases h' with
    | fresh hj => cases hi.unique hj; exact ⟨rfl, rfl⟩
  | unused h =>
    cases h' with
    | unused => exact ⟨rfl, rfl⟩
    | variant h' _ => exact absurd h' h
  | variant h hi =>
    cases h' with
    | unused h' => exact absurd h h'
    | variant _ hj => cases hi.unique hj; exact ⟨rfl, rfl⟩

/-- Every request is answered, in one way only. -/
theorem answers_iff : Answers names r q names' ↔ names.answer r = (q, names') := by
  constructor
  · intro h
    obtain ⟨hq, hnames⟩ := (answers_answer names r).unique h
    exact Prod.ext hq hnames
  · intro h
    have := answers_answer names r
    rwa [h] at this

/-- The answers to requests one after the other, with searches that nothing bounds. -/
inductive AnswersAll : FreshNames → List Request → List State → Prop
  | nil {names : FreshNames} : AnswersAll names [] []
  | cons {names names' : FreshNames} {r : Request} {rs : List Request} {q : State}
    {qs : List State} (h : Answers names r q names') (hs : AnswersAll names' rs qs) :
    AnswersAll names (r :: rs) (q :: qs)

/-- **All requests are answered**, and the bounded searches find these answers. -/
theorem answersAll_iff : ∀ {rs : List Request} {names : FreshNames} {qs : List State},
    AnswersAll names rs qs ↔ qs = names.answerAll rs
  | [], names, qs => by
    constructor
    · rintro ⟨⟩
      rfl
    · rintro rfl
      exact .nil
  | r :: rs, names, qs => by
    constructor
    · rintro (_ | ⟨h, hs⟩)
      have hr := answers_iff.mp h
      rw [answersAll_iff.mp hs]
      simp only [answerAll, hr]
    · rintro rfl
      exact .cons (answers_answer names r) (answersAll_iff.mpr rfl)

/-- **Calls to a supply** in any order all come to an end, without a bound on the searches. The
names they hand out are pairwise different and none of them is taken; a requested name is handed
out unless it is taken or has been handed out before, and a numbered name is its stem with a number
behind it. -/
theorem answersAll_iff_and_supplied (taken : List State) (rs : List Request) :
    (∀ qs, AnswersAll (avoiding taken) rs qs ↔ qs = (avoiding taken).answerAll rs) ∧
      Supplied taken rs ((avoiding taken).answerAll rs) :=
  ⟨fun _ => answersAll_iff, supplied_answerAll taken rs⟩

end FreshNames

end RegularLanguages
