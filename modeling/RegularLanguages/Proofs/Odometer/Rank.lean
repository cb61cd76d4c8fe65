import Mathlib.Algebra.Order.Ring.Nat
import Mathlib.Data.List.Shortlex
import Mathlib.Order.Fin.Basic
import RegularLanguages.Odometer

/-!
# The rank of the digits of an odometer

The digits of an odometer are numbered: what is shorter comes first, and digits of one length are
read as a number to the base of the number of symbols. This rank follows the shortlex order, and
going on adds one to it, with and without a further digit.

Results:
* **`rank_lt_of_shortlex`**, `rank_injective`: the rank and the shortlex order.
* `value_turn`: what turning the digits adds.
* **`rank_following?`**: going on adds one.
-/

namespace RegularLanguages.Odometer

open List (Shortlex)

variable {n : Nat} {ds es : List (Fin n)} {j k : Nat}

/-! ## The rank of the digits -/

/-- The digits read as a number. -/
def value : List (Fin n) → Nat
  | [] => 0
  | d :: ds => d.val * n ^ ds.length + value ds

/-- How many lists of digits are shorter. -/
def shorter (n : Nat) : Nat → Nat
  | 0 => 0
  | length + 1 => shorter n length + n ^ length

/-- The place of the digits among all lists of digits. -/
def rank (ds : List (Fin n)) : Nat := shorter n ds.length + value ds

theorem value_cons_lt (d : Fin n) (h : value ds < n ^ ds.length) :
    value (d :: ds) < (d.val + 1) * n ^ ds.length := by
  rw [value, Nat.succ_mul]
  exact Nat.add_lt_add_left h _

theorem value_lt (ds : List (Fin n)) : value ds < n ^ ds.length := by
  induction ds with
  | nil => exact Nat.one_pos
  | cons d ds ih =>
    calc value (d :: ds)
      _ < (d.val + 1) * n ^ ds.length := value_cons_lt d ih
      _ ≤ n * n ^ ds.length := Nat.mul_le_mul_right _ d.isLt
      _ = n ^ (ds.length + 1) := Nat.pow_succ'.symm

theorem shorter_mono (h : j ≤ k) : shorter n j ≤ shorter n k := by
  induction h with
  | refl => exact Nat.le_refl _
  | step _ ih => exact Nat.le_trans ih (Nat.le_add_right _ _)

theorem rank_lt (ds : List (Fin n)) : rank ds < shorter n (ds.length + 1) :=
  Nat.add_lt_add_left (value_lt ds) _

theorem value_lt_of_lex (h : List.Lex (· < ·) ds es) (hlength : ds.length = es.length) :
    value ds < value es := by
  induction h with
  | nil => simp at hlength
  | @rel d ds e es hde =>
    have hlength : ds.length = es.length := Nat.succ.inj hlength
    calc value (d :: ds)
      _ < (d.val + 1) * n ^ ds.length := value_cons_lt d (value_lt ds)
      _ ≤ e.val * n ^ es.length := by rw [hlength]; exact Nat.mul_le_mul_right _ hde
      _ ≤ e.val * n ^ es.length + value es := Nat.le_add_right _ _
  | @cons d ds es _ ih =>
    have hlength : ds.length = es.length := Nat.succ.inj hlength
    show d.val * n ^ ds.length + value ds < d.val * n ^ es.length + value es
    rw [hlength]
    exact Nat.add_lt_add_left (ih hlength) _

/-- **The rank follows the shortlex order.** -/
theorem rank_lt_of_shortlex (h : Shortlex (· < ·) ds es) : rank ds < rank es := by
  rcases List.shortlex_def.mp h with hlength | ⟨hlength, hlex⟩
  · calc rank ds
      _ < shorter n (ds.length + 1) := rank_lt ds
      _ ≤ shorter n es.length := shorter_mono hlength
      _ ≤ rank es := Nat.le_add_right _ _
  · rw [rank, rank, hlength]
    exact Nat.add_lt_add_left (value_lt_of_lex hlex hlength) _

theorem rank_injective (h : rank ds = rank es) : ds = es := by
  rcases Std.Trichotomous.rel_or_eq_or_rel_swap (r := Shortlex (· < ·)) (a := ds) (b := es)
    with hlt | heq | hgt
  · exact absurd h (rank_lt_of_shortlex hlt).ne
  · exact heq
  · exact absurd h (rank_lt_of_shortlex hgt).ne'

theorem shortlex_of_rank_lt (h : rank ds < rank es) : Shortlex (· < ·) ds es := by
  rcases Std.Trichotomous.rel_or_eq_or_rel_swap (r := Shortlex (· < ·)) (a := ds) (b := es)
    with hlt | rfl | hgt
  · exact hlt
  · exact absurd h (Nat.lt_irrefl _)
  · exact absurd h (rank_lt_of_shortlex hgt).le.not_gt

/-! ## Going on -/

theorem turn_cons (d : Fin n) (ds : List (Fin n)) :
    turn (d :: ds) =
      if (turn ds).2 then
        if h : d.val + 1 < n then (⟨d.val + 1, h⟩ :: (turn ds).1, false)
        else (⟨0, d.pos⟩ :: (turn ds).1, true)
      else (d :: (turn ds).1, false) := rfl

theorem length_turn (ds : List (Fin n)) : (turn ds).1.length = ds.length := by
  induction ds with
  | nil => rfl
  | cons d ds ih =>
    rw [turn_cons]
    split_ifs <;> simp [ih]

/-- Turning adds one, and takes away all that the digits can count when they go back. -/
theorem value_turn (ds : List (Fin n)) :
    value (turn ds).1 + (if (turn ds).2 then n ^ ds.length else 0) = value ds + 1 := by
  induction ds with
  | nil => rfl
  | cons d ds ih =>
    have hlength := length_turn ds
    rw [turn_cons]
    by_cases hback : (turn ds).2 = true
    · rw [if_pos hback] at ih ⊢
      by_cases h : d.val + 1 < n
      · rw [dif_pos h]
        simp only [value, hlength, Bool.false_eq_true, if_false, Nat.add_zero]
        rw [Nat.succ_mul]
        omega
      · have hd : d.val + 1 = n := by omega
        rw [dif_neg h]
        simp only [value, if_true, List.length_cons, Nat.zero_mul, Nat.zero_add]
        have hpow : n ^ (ds.length + 1) = d.val * n ^ ds.length + n ^ ds.length := by
          rw [Nat.pow_succ', ← Nat.succ_mul, Nat.succ_eq_add_one, hd]
        omega
    · rw [if_neg hback] at ih ⊢
      simp only [value, hlength, Bool.false_eq_true, if_false, Nat.add_zero]
      omega

/-- All digits go back only if they count as far as they can. -/
theorem value_of_back (h : (turn ds).2 = true) : value ds + 1 = n ^ ds.length := by
  have hturn := value_turn ds
  rw [if_pos h] at hturn
  have := value_lt ds
  omega

/-- When all digits go back they all are in the first place. -/
theorem turn_of_back (h : 0 < n) :
    ∀ {ds : List (Fin n)}, (turn ds).2 = true → (turn ds).1 = List.replicate ds.length ⟨0, h⟩
  | [], _ => rfl
  | d :: ds, hback => by
    rw [turn_cons] at hback ⊢
    by_cases hds : (turn ds).2 = true
    · rw [if_pos hds] at hback ⊢
      by_cases hd : d.val + 1 < n
      · rw [dif_pos hd] at hback
        cases hback
      · rw [dif_neg hd, turn_of_back h hds]
        rfl
    · rw [if_neg hds] at hback
      cases hback

theorem value_replicate_zero (h : 0 < n) (length : Nat) :
    value (List.replicate length (⟨0, h⟩ : Fin n)) = 0 := by
  induction length with
  | zero => rfl
  | succ length ih => simp [List.replicate_succ, value, ih]

/-- **Going on adds one to the rank.** -/
theorem rank_following? (h : 0 < n) (ds : List (Fin n)) :
    ∃ es, following? ds = some es ∧ rank es = rank ds + 1 := by
  refine ⟨_, dif_pos h, ?_⟩
  by_cases hback : (turn ds).2 = true
  · have := value_of_back hback
    simp only [hback, if_true, rank, List.length_replicate, value_replicate_zero, shorter]
    omega
  · have hturn := value_turn ds
    rw [if_neg hback, Nat.add_zero] at hturn
    rw [if_neg hback, rank, length_turn, hturn]
    rfl

end RegularLanguages.Odometer
