import Mathlib.Data.List.Perm.Subperm
import RegularLanguages.Proofs.Refinement

/-!
# Short words tell states apart

States of a finite machine that no word shorter than the number of states tells apart are not
told apart by any word (Moore). The words of less than `n` symbols divide the states into
classes. As long as one more symbol tells further states apart there is a further class, so with
every symbol there is a further state that is told apart from all states before (`ToldApart`);
once one more symbol tells no further states apart, no number of symbols does.

Results:
* `agreeBelow_succ_iff`: one more symbol is a step and a shorter word.
* `agreeBelow_of_stable`: when one more symbol adds nothing, no word adds anything.
* `exists_toldApart_cons`: a symbol that adds something adds a class.
* **`indistinguishable_of_agreeBelow`**: words as long as there are states are long enough.
-/

namespace RegularLanguages.Refinement

variable {σ ι : Type} {symbols : List ι} {next : σ → ι → σ} {accepting : σ → Bool}
  {states : List σ} {n k : Nat} {p q r : σ}

/-- No word of less than `n` symbols tells the states apart. -/
def AgreeBelow (symbols : List ι) (next : σ → ι → σ) (accepting : σ → Bool) (n : Nat) (p q : σ) :
    Prop :=
  ∀ w : List ι, w.length < n → (∀ a ∈ w, a ∈ symbols) →
    accepting (w.foldl next p) = accepting (w.foldl next q)

theorem AgreeBelow.refl (n : Nat) (p : σ) : AgreeBelow symbols next accepting n p p :=
  fun _ _ _ => rfl

theorem AgreeBelow.symm (h : AgreeBelow symbols next accepting n p q) :
    AgreeBelow symbols next accepting n q p :=
  fun w hn hw => (h w hn hw).symm

theorem AgreeBelow.trans (h : AgreeBelow symbols next accepting n p q)
    (h' : AgreeBelow symbols next accepting n q r) : AgreeBelow symbols next accepting n p r :=
  fun w hn hw => (h w hn hw).trans (h' w hn hw)

theorem AgreeBelow.mono (hkn : k ≤ n) (h : AgreeBelow symbols next accepting n p q) :
    AgreeBelow symbols next accepting k p q :=
  fun w hk hw => h w (Nat.lt_of_lt_of_le hk hkn) hw

/-- A word of less than `n + 1` symbols is empty, or a symbol in front of a word of less than
`n`. -/
theorem agreeBelow_succ_iff :
    AgreeBelow symbols next accepting (n + 1) p q ↔
      accepting p = accepting q ∧
        ∀ a ∈ symbols, AgreeBelow symbols next accepting n (next p a) (next q a) := by
  constructor
  · intro h
    refine ⟨h [] (Nat.succ_pos n) (by simp), fun a ha w hn hw => ?_⟩
    exact h (a :: w) (Nat.succ_lt_succ hn) (List.forall_mem_cons.mpr ⟨ha, hw⟩)
  · rintro ⟨hpq, h⟩ w hn hw
    cases w with
    | nil => exact hpq
    | cons a w =>
      obtain ⟨ha, hw⟩ := List.forall_mem_cons.mp hw
      exact h a ha w (Nat.lt_of_succ_lt_succ hn) hw

/-- If one symbol more tells no further states apart, then no number of symbols does. -/
theorem agreeBelow_of_stable (hclosed : ∀ q ∈ states, ∀ a ∈ symbols, next q a ∈ states)
    (hstable : ∀ p ∈ states, ∀ q ∈ states, AgreeBelow symbols next accepting n p q →
      AgreeBelow symbols next accepting (n + 1) p q) :
    ∀ (k : Nat) {p q : σ}, p ∈ states → q ∈ states → AgreeBelow symbols next accepting n p q →
      AgreeBelow symbols next accepting (n + k) p q
  | 0, _, _, _, _, h => h
  | k + 1, p, q, hp, hq, h => by
    obtain ⟨hpq, hnext⟩ := agreeBelow_succ_iff.mp (hstable p hp q hq h)
    refine agreeBelow_succ_iff.mpr ⟨hpq, fun a ha => ?_⟩
    exact agreeBelow_of_stable hclosed hstable k (hclosed p hp a ha) (hclosed q hq a ha)
      (hnext a ha)

/-- States any two of which are told apart by a word of less than `n` symbols. -/
structure ToldApart (states : List σ) (symbols : List ι) (next : σ → ι → σ)
    (accepting : σ → Bool) (n : Nat) (found : List σ) : Prop where
  subset : ∀ q ∈ found, q ∈ states
  pairwise : found.Pairwise fun p q => ¬ AgreeBelow symbols next accepting n p q

theorem ToldApart.length_le {found : List σ}
    (h : ToldApart states symbols next accepting n found) : found.length ≤ states.length := by
  have hn : found.Nodup := h.pairwise.imp fun {p q} hpq (he : p = q) => hpq (he ▸ .refl n p)
  exact (List.subperm_of_subset hn h.subset).length_le

/-- Members of the list that agree are equal. -/
theorem ToldApart.eq_of_agreeBelow {found : List σ}
    (h : ToldApart states symbols next accepting n found) (hp : p ∈ found) (hq : q ∈ found)
    (hpq : AgreeBelow symbols next accepting n p q) : p = q := by
  have hsymm : Std.Symm fun p q => ¬ AgreeBelow symbols next accepting n p q :=
    ⟨fun _ _ hn h => hn h.symm⟩
  by_contra hne
  exact h.pairwise.forall hp hq hne hpq

/-- **A symbol that tells two further states apart adds a class**: of these two, at least one is
told apart from all states before. -/
theorem exists_toldApart_cons {found : List σ}
    (h : ToldApart states symbols next accepting n found) (hp : p ∈ states) (hq : q ∈ states)
    (hpq : AgreeBelow symbols next accepting n p q)
    (hne : ¬ AgreeBelow symbols next accepting (n + 1) p q) :
    ∃ r, ToldApart states symbols next accepting (n + 1) (r :: found) := by
  have hfound : found.Pairwise fun p q => ¬ AgreeBelow symbols next accepting (n + 1) p q :=
    h.pairwise.imp fun hn h' => hn (h'.mono (Nat.le_succ n))
  have hcons {r : σ} (hr : r ∈ states)
      (hapart : ∀ s ∈ found, ¬ AgreeBelow symbols next accepting (n + 1) r s) :
      ToldApart states symbols next accepting (n + 1) (r :: found) :=
    ⟨List.forall_mem_cons.mpr ⟨hr, h.subset⟩, List.pairwise_cons.mpr ⟨hapart, hfound⟩⟩
  by_cases hp' : ∀ s ∈ found, ¬ AgreeBelow symbols next accepting (n + 1) p s
  · exact ⟨p, hcons hp hp'⟩
  · refine ⟨q, hcons hq fun t ht hqt => ?_⟩
    obtain ⟨s, hs, hps⟩ : ∃ s ∈ found, AgreeBelow symbols next accepting (n + 1) p s := by
      simpa using hp'
    -- `s` and `t` agree as `p` and `q` did, so they are one state, and `p` and `q` still agree
    have hst : AgreeBelow symbols next accepting n s t :=
      ((hps.mono (Nat.le_succ n)).symm.trans hpq).trans (hqt.mono (Nat.le_succ n))
    obtain rfl := h.eq_of_agreeBelow hs ht hst
    exact hne (hps.trans hqt.symm)

theorem exists_toldApart (hp : p ∈ states)
    (hunstable : ∀ k < n, ∃ p ∈ states, ∃ q ∈ states, AgreeBelow symbols next accepting k p q ∧
      ¬ AgreeBelow symbols next accepting (k + 1) p q) :
    ∃ found, ToldApart states symbols next accepting n found ∧ found.length = n + 1 := by
  induction n with
  | zero =>
    refine ⟨[p], ⟨fun q hq => ?_, List.pairwise_singleton _ _⟩, rfl⟩
    rw [List.mem_singleton.mp hq]
    exact hp
  | succ n ih =>
    obtain ⟨found, h, hlength⟩ := ih fun k hk => hunstable k (Nat.lt_succ_of_lt hk)
    obtain ⟨p', hp', q', hq', hpq, hne⟩ := hunstable n (Nat.lt_succ_self n)
    obtain ⟨r, hr⟩ := exists_toldApart_cons h hp' hq' hpq hne
    exact ⟨r :: found, hr, by rw [List.length_cons, hlength]⟩

/-- **States that are not told apart by a word shorter than the number of states are not told
apart at all.** -/
theorem indistinguishable_of_agreeBelow
    (hclosed : ∀ q ∈ states, ∀ a ∈ symbols, next q a ∈ states) (hp : p ∈ states)
    (hq : q ∈ states) (h : AgreeBelow symbols next accepting states.length p q) :
    Indistinguishable symbols next accepting p q := by
  by_cases hstable : ∃ k < states.length, ∀ p ∈ states, ∀ q ∈ states,
      AgreeBelow symbols next accepting k p q → AgreeBelow symbols next accepting (k + 1) p q
  · obtain ⟨k, hk, hstable⟩ := hstable
    intro w hw
    have hlong := agreeBelow_of_stable hclosed hstable (w.length + 1) hp hq
      (h.mono (Nat.le_of_lt hk))
    exact hlong w (by omega) hw
  · push Not at hstable
    obtain ⟨found, hfound, hlength⟩ := exists_toldApart hp hstable
    have hle := hfound.length_le
    omega

end RegularLanguages.Refinement
