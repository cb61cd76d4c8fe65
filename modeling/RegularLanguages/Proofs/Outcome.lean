import Mathlib.Data.List.Forall2

/-!
# Computations that may be refused

How a computation that went well went: each of its parts did, and what the parts keep holds of
the result. What was refused was refused at one of the parts.
-/

namespace RegularLanguages

variable {ε α β : Type}

theorem bind_eq_ok {x : Except ε α} {f : α → Except ε β} {b : β} (h : x >>= f = .ok b) :
    ∃ a, x = .ok a ∧ f a = .ok b := by
  cases x with
  | error e => exact absurd h (by simp [bind, Except.bind])
  | ok a => exact ⟨a, rfl, h⟩

theorem bind_eq_ok_iff {x : Except ε α} {f : α → Except ε β} {b : β} :
    x >>= f = .ok b ↔ ∃ a, x = .ok a ∧ f a = .ok b := by
  refine ⟨bind_eq_ok, ?_⟩
  rintro ⟨a, rfl, h⟩
  exact h

theorem bind_eq_error {x : Except ε α} {f : α → Except ε β} {e : ε} (h : x >>= f = .error e) :
    x = .error e ∨ ∃ a, x = .ok a ∧ f a = .error e := by
  cases x with
  | error d => exact Or.inl (congrArg Except.error (Except.error.inj h))
  | ok a => exact Or.inr ⟨a, rfl, h⟩

theorem map_eq_ok {x : Except ε α} {f : α → β} {b : β} (h : x.map f = .ok b) :
    ∃ a, x = .ok a ∧ f a = b := by
  cases x with
  | error e => exact absurd h (by simp [Except.map])
  | ok a => exact ⟨a, rfl, Except.ok.inj h⟩

theorem foldlM_append_of_ok {f : β → α → Except ε β} {l m : List α} {b c d : β}
    (hl : l.foldlM f b = .ok c) (hm : m.foldlM f c = .ok d) : (l ++ m).foldlM f b = .ok d := by
  rw [List.foldlM_append, hl]
  exact hm

/-- What every step keeps holds at the end. -/
theorem foldlM_keeps {P : β → Prop} {f : β → α → Except ε β}
    (hf : ∀ b a b', P b → f b a = .ok b' → P b') :
    ∀ {l : List α} {b b' : β}, l.foldlM f b = .ok b' → P b → P b'
  | [], _, _, h, hb => Except.ok.inj h ▸ hb
  | a :: l, b, b', h, hb => by
    rw [List.foldlM_cons] at h
    obtain ⟨c, hc, h⟩ := bind_eq_ok h
    exact foldlM_keeps hf h (hf b a c hb hc)

/-- What is refused is refused at one of the steps. -/
theorem foldlM_eq_error {P : β → Prop} {f : β → α → Except ε β} {e : ε}
    (hf : ∀ b a b', P b → f b a = .ok b' → P b') :
    ∀ {l : List α} {b : β}, l.foldlM f b = .error e → P b → ∃ a ∈ l, ∃ c, P c ∧ f c a = .error e
  | [], _, h, _ => nomatch h
  | a :: l, b, h, hb => by
    rw [List.foldlM_cons] at h
    rcases bind_eq_error h with h | ⟨c, hc, h⟩
    · exact ⟨a, List.mem_cons_self, b, hb, h⟩
    · obtain ⟨d, hd, hrest⟩ := foldlM_eq_error hf h (hf b a c hb hc)
      exact ⟨d, List.mem_cons_of_mem a hd, hrest⟩

/-- If each step can be told to go well by what it is given alone, all of them go well iff each
does. -/
theorem foldlM_eq_ok_iff {P : β → Prop} {passes : α → Prop} {next : β → α → β}
    {f : β → α → Except ε β} (hf : ∀ b a c, P b → (f b a = .ok c ↔ passes a ∧ c = next b a))
    (hnext : ∀ b a, P b → P (next b a)) :
    ∀ {l : List α} {b c : β}, P b →
      (l.foldlM f b = .ok c ↔ (∀ a ∈ l, passes a) ∧ c = l.foldl next b)
  | [], b, c, _ => by
    rw [List.foldlM_nil]
    exact ⟨fun h => ⟨by simp, (Except.ok.inj h).symm⟩, fun h => h.2 ▸ rfl⟩
  | a :: l, b, c, hb => by
    rw [List.foldlM_cons, List.forall_mem_cons]
    constructor
    · intro h
      obtain ⟨d, hd, h⟩ := bind_eq_ok h
      obtain ⟨ha, rfl⟩ := (hf b a d hb).mp hd
      obtain ⟨hl, rfl⟩ := (foldlM_eq_ok_iff hf hnext (hnext b a hb)).mp h
      exact ⟨⟨ha, hl⟩, rfl⟩
    · rintro ⟨⟨ha, hl⟩, rfl⟩
      rw [(hf b a _ hb).mpr ⟨ha, rfl⟩]
      exact (foldlM_eq_ok_iff hf hnext (hnext b a hb)).mpr ⟨hl, rfl⟩

theorem mapM_eq_ok_iff {f : α → Except ε β} : ∀ {l : List α} {m : List β},
    l.mapM f = .ok m ↔ List.Forall₂ (fun a b => f a = .ok b) l m
  | [], m => by
    rw [List.mapM_nil, List.forall₂_nil_left_iff]
    exact ⟨fun h => (Except.ok.inj h).symm, fun h => h ▸ rfl⟩
  | a :: l, m => by
    rw [List.mapM_cons, List.forall₂_cons_left_iff]
    constructor
    · intro h
      obtain ⟨b, hb, h⟩ := bind_eq_ok h
      obtain ⟨bs, hbs, h⟩ := bind_eq_ok h
      exact ⟨b, bs, hb, mapM_eq_ok_iff.mp hbs, (Except.ok.inj h).symm⟩
    · rintro ⟨b, bs, hb, hbs, rfl⟩
      rw [hb, mapM_eq_ok_iff.mpr hbs]
      rfl

theorem mapM_eq_error {f : α → Except ε β} {e : ε} : ∀ {l : List α}, l.mapM f = .error e →
    ∃ a ∈ l, f a = .error e
  | [], h => nomatch h
  | a :: l, h => by
    rw [List.mapM_cons] at h
    rcases bind_eq_error h with h | ⟨b, -, h⟩
    · exact ⟨a, List.mem_cons_self, h⟩
    · rcases bind_eq_error h with h | ⟨bs, -, h⟩
      · obtain ⟨d, hd, h⟩ := mapM_eq_error h
        exact ⟨d, List.mem_cons_of_mem a hd, h⟩
      · exact nomatch h

end RegularLanguages
