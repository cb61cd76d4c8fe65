import RegularLanguages.Regex.Language

/-!
# The simplifying constructors keep the language

`unite`, `append` and `iterate` rewrite an expression on the way, and denote what `union`,
`concat` and `star` denote.

Results:
* `matches_unite`, `matches_append`, **`matches_iterate`**: what the constructors denote.
* `exists_matches`: no expression denotes the empty language.
* `matches_uniteAll`: the union of a list, which may be missing.
-/

namespace RegularLanguages.Regex

variable {r s : Regex} {w : Word}

/-- Every expression has a word. -/
theorem exists_matches : ∀ r : Regex, ∃ w, r.Matches w
  | .epsilon => ⟨[], .epsilon⟩
  | .symbol c => ⟨[c], .symbol c⟩
  | .union l _ => by
    obtain ⟨w, h⟩ := exists_matches l
    exact ⟨w, .unionLeft h⟩
  | .concat l r => by
    obtain ⟨u, hu⟩ := exists_matches l
    obtain ⟨v, hv⟩ := exists_matches r
    exact ⟨u ++ v, .concat hu hv⟩
  | .star _ => ⟨[], .starNil⟩

/-! ## Unions and concatenations -/

/-- An expression denotes what its union terms denote together. -/
theorem matches_iff_unionTerms : r.Matches w ↔ ∃ t ∈ r.unionTerms, t.Matches w := by
  induction r with
  | union l r ihl ihr =>
    rw [matches_union, ihl, ihr, unionTerms]
    simp only [List.mem_append, or_and_right, exists_or]
  | _ => simp [unionTerms]

@[simp] theorem matches_unite : (r.unite s).Matches w ↔ r.Matches w ∨ s.Matches w := by
  unfold unite
  split
  · rename_i h
    exact (or_iff_left_of_imp fun hs => matches_iff_unionTerms.mpr ⟨s, h, hs⟩).symm
  · split
    · rename_i h
      exact (or_iff_right_of_imp fun hr => matches_iff_unionTerms.mpr ⟨r, h, hr⟩).symm
    · exact matches_union

theorem matches_adjoin {old : Option Regex} :
    (adjoin old r).Matches w ↔ languageOf old w ∨ r.Matches w := by
  cases old with
  | none => exact (false_or _).to_iff.symm
  | some l => exact matches_unite

@[simp] theorem matches_append :
    (r.append s).Matches w ↔ ∃ u v, r.Matches u ∧ s.Matches v ∧ u ++ v = w := by
  unfold append
  split
  · rename_i h
    simp [h]
  · split
    · rename_i h
      simp [h]
    · exact matches_concat

/-- Joined by any operation that denotes the union, expressions denote what they denote together. -/
theorem matches_foldl {join : Regex → Regex → Regex}
    (hjoin : ∀ l r, (join l r).Matches w ↔ l.Matches w ∨ r.Matches w) :
    ∀ (rs : List Regex) (r : Regex),
      (rs.foldl join r).Matches w ↔ r.Matches w ∨ ∃ t ∈ rs, t.Matches w
  | [], r => by simp
  | t :: rs, r => by
    rw [List.foldl_cons, matches_foldl hjoin rs, hjoin]
    simp only [List.mem_cons, exists_eq_or_imp, or_assoc]

/-- Operands that are left out of a union do not change what it denotes. -/
theorem matches_foldl_unite (rs : List Regex) (r : Regex) :
    (rs.foldl unite r).Matches w ↔ (rs.foldl union r).Matches w :=
  (matches_foldl (fun _ _ => matches_unite) rs r).trans
    (matches_foldl (fun _ _ => matches_union) rs r).symm

/-- The union of a list denotes what its entries denote together, nothing if there are none. -/
theorem matches_uniteAll {rs : List Regex} :
    languageOf (uniteAll rs) w ↔ ∃ t ∈ rs, t.Matches w := by
  cases rs with
  | nil => simp [uniteAll, languageOf]
  | cons r rs =>
    show (rs.foldl unite r).Matches w ↔ _
    rw [matches_foldl fun _ _ => matches_unite]
    simp only [List.mem_cons, exists_eq_or_imp]

/-! ## Repetitions -/

/-- What holds of the empty word, and of every word of the operand in front of a word of the
repetition for which it holds, holds of all words of the repetition. -/
theorem Matches.star_induction {motive : ∀ w, (star r).Matches w → Prop}
    (nil : motive [] .starNil)
    (append : ∀ u v (hu : r.Matches u) (hv : (star r).Matches v), motive v hv →
      motive (u ++ v) (.starAppend hu hv))
    (h : (star r).Matches w) : motive w h := by
  have hstar : ∀ {s : Regex} {w : Word}, s.Matches w → s = star r →
      ∀ h : (star r).Matches w, motive w h := by
    intro s w hw
    induction hw with
    | starNil => exact fun _ _ => nil
    | starAppend hu hv _ ih =>
      rintro ⟨⟩ _
      exact append _ _ hu hv (ih rfl hv)
    | _ => exact fun hs => nomatch hs
  exact hstar h rfl h

theorem Matches.star_append {u v : Word} (hu : (star r).Matches u) (hv : (star r).Matches v) :
    (star r).Matches (u ++ v) := by
  induction hu using Matches.star_induction with
  | nil => exact hv
  | append u' v' hu' _ ih =>
    rw [List.append_assoc]
    exact .starAppend hu' ih

/-- The empty word is of no use to a repetition. -/
theorem Matches.star_mono (h : ∀ u, u ≠ [] → r.Matches u → s.Matches u)
    (hw : (star r).Matches w) : (star s).Matches w := by
  induction hw using Matches.star_induction with
  | nil => exact .starNil
  | append u v hu _ ih =>
    by_cases hn : u = []
    · rw [hn]
      exact ih
    · exact .starAppend (h u hn hu) ih

theorem matches_star_congr (h : ∀ u, u ≠ [] → (r.Matches u ↔ s.Matches u)) :
    (star r).Matches w ↔ (star s).Matches w :=
  ⟨.star_mono fun u hu => (h u hu).mp, .star_mono fun u hu => (h u hu).mpr⟩

theorem matches_star_star : (star (star r)).Matches w ↔ (star r).Matches w := by
  constructor
  · intro h
    induction h using Matches.star_induction with
    | nil => exact .starNil
    | append u v hu _ ih => exact hu.star_append ih
  · intro h
    rw [← List.append_nil w]
    exact .starAppend h .starNil

theorem matches_star_epsilon : (star epsilon).Matches w ↔ w = [] := by
  constructor
  · intro h
    induction h using Matches.star_induction with
    | nil => rfl
    | append u v hu _ ih => rw [matches_epsilon.mp hu, ih, List.append_nil]
  · rintro rfl
    exact .starNil

/-- **`iterate` denotes the repetitions of its operand**, although it drops the empty word. -/
@[simp] theorem matches_iterate : r.iterate.Matches w ↔ (star r).Matches w := by
  have hterms (u : Word) (hu : u ≠ []) : r.Matches u ↔
      languageOf (uniteAll (r.unionTerms.filter (· ≠ epsilon))) u := by
    rw [matches_iff_unionTerms, matches_uniteAll]
    refine exists_congr fun t => and_congr_left fun ht => ?_
    rw [List.mem_filter, decide_eq_true_eq]
    refine (and_iff_left ?_).symm
    rintro rfl
    exact hu (matches_epsilon.mp ht)
  unfold iterate
  split
  · rename_i h
    rw [h] at hterms
    rw [matches_epsilon, ← matches_star_epsilon]
    exact matches_star_congr fun u hu =>
      iff_of_false (fun he => hu (matches_epsilon.mp he)) (hterms u hu).mp
  · rename_i t h
    rw [h] at hterms
    rw [← matches_star_star]
    exact (matches_star_congr hterms).symm
  · rename_i t _ h
    rw [h] at hterms
    exact (matches_star_congr hterms).symm

end RegularLanguages.Regex
