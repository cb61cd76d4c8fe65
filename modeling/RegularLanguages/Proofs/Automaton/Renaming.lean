import RegularLanguages.Proofs.Automaton.Deterministic

/-!
# Renamed automata

Renaming the states of an automaton changes nothing but the names, as long as different states
get different names (`Faithful`). Conversely two automata that are complete, deterministic,
accessible and separated differ by such a renaming only, if they have the same alphabet and the
same language: each state is mapped to the one with its meaning.

Results:
* `rename_total`, `rename_languageFrom`, `rename_accessible`, `rename_separated`: what renaming
  keeps.
* **`exists_rename_eq`**: the minimal automaton is unique up to the names of its states.
-/

namespace RegularLanguages

namespace Automaton

variable {A B : Automaton} {f g : State → State}

/-- Different states get different names. -/
def Faithful (A : Automaton) (f : State → State) : Prop :=
  ∀ p ∈ A.states, ∀ q ∈ A.states, f p = f q → p = q

theorem mem_states_rename {q : State} : q ∈ (A.rename f).states ↔ ∃ p ∈ A.states, f p = q :=
  OrderedSet.mem_map

theorem mem_edges_rename {e : Edge} :
    e ∈ (A.rename f).edges ↔ ∃ d ∈ A.edges, ⟨f d.source, d.label, f d.target⟩ = e :=
  OrderedSet.mem_map

theorem mem_finals_rename {q : State} : q ∈ (A.rename f).finals ↔ ∃ p ∈ A.finals, f p = q :=
  OrderedSet.mem_map

theorem initial_rename (A : Automaton) (f : State → State) :
    (A.rename f).initial = A.initial.map f := rfl

@[simp] theorem alphabet_rename (A : Automaton) (f : State → State) :
    (A.rename f).alphabet = A.alphabet := rfl

theorem rename_valid (hA : A.Valid) : (A.rename f).Valid where
  initial_mem q hq := by
    obtain ⟨p, hp, rfl⟩ := Option.map_eq_some_iff.mp hq
    exact mem_states_rename.mpr ⟨p, hA.initial_mem p hp, rfl⟩
  final_mem q hq := by
    obtain ⟨p, hp, rfl⟩ := mem_finals_rename.mp hq
    exact mem_states_rename.mpr ⟨p, hA.final_mem p hp, rfl⟩
  source_mem e he := by
    obtain ⟨d, hd, rfl⟩ := mem_edges_rename.mp he
    exact mem_states_rename.mpr ⟨_, hA.source_mem d hd, rfl⟩
  target_mem e he := by
    obtain ⟨d, hd, rfl⟩ := mem_edges_rename.mp he
    exact mem_states_rename.mpr ⟨_, hA.target_mem d hd, rfl⟩
  label_mem e he c hc := by
    obtain ⟨d, hd, rfl⟩ := mem_edges_rename.mp he
    exact hA.label_mem d hd c hc
  epsilon_not_mem := hA.epsilon_not_mem

theorem rename_rename (A : Automaton) (f g : State → State) :
    (A.rename f).rename g = A.rename (g ∘ f) := by
  have hmap {α : Type} [Ord α] [Std.TransOrd α] [Std.LawfulEqOrd α] (s : OrderedSet α)
      (f g : α → α) : (s.map f).map g = s.map (g ∘ f) :=
    OrderedSet.ext_mem fun z => by simp
  unfold rename
  rw [hmap, hmap, hmap, Option.map_map]
  rfl

theorem rename_congr (hA : A.Valid) (h : ∀ q ∈ A.states, f q = g q) : A.rename f = A.rename g := by
  have hmap {α : Type} [Ord α] [Std.TransOrd α] [Std.LawfulEqOrd α] {s : OrderedSet α}
      {f g : α → α} (h : ∀ x ∈ s, f x = g x) : s.map f = s.map g :=
    congrArg OrderedSet.ofList (List.map_congr_left h)
  unfold rename
  congr 1
  · exact hmap h
  · refine hmap fun e he => ?_
    rw [h _ (hA.source_mem e he), h _ (hA.target_mem e he)]
  · exact Option.map_congr fun q hq => h q (hA.initial_mem q hq)
  · exact hmap fun q hq => h q (hA.final_mem q hq)

section Faithful

variable (hA : A.Valid) (hf : A.Faithful f)
include hA hf

/-- The transitions from a renamed state are its renamed transitions. -/
theorem mem_edges_rename_from {p q : State} {a : Label} (hp : p ∈ A.states) :
    ⟨f p, a, q⟩ ∈ (A.rename f).edges ↔ ∃ r, ⟨p, a, r⟩ ∈ A.edges ∧ f r = q := by
  rw [mem_edges_rename]
  constructor
  · rintro ⟨⟨s, b, r⟩, hd, he⟩
    obtain ⟨hs, rfl, rfl⟩ := Edge.mk.inj he
    obtain rfl := hf s (hA.source_mem _ hd) p hp hs
    exact ⟨r, hd, rfl⟩
  · rintro ⟨r, hr, rfl⟩
    exact ⟨_, hr, rfl⟩

theorem mem_finals_rename_iff {p : State} (hp : p ∈ A.states) :
    f p ∈ (A.rename f).finals ↔ p ∈ A.finals := by
  rw [mem_finals_rename]
  constructor
  · rintro ⟨q, hq, he⟩
    exact hf q (hA.final_mem q hq) p hp he ▸ hq
  · intro h
    exact ⟨p, h, rfl⟩

omit hA hf in
theorem path_rename {p q : State} {w : Word} (h : A.Path p w q) :
    (A.rename f).Path (f p) w (f q) := by
  induction h with
  | refl => exact .refl _
  | epsilon he _ ih => exact .epsilon (mem_edges_rename.mpr ⟨_, he, rfl⟩) ih
  | symbol he _ ih => exact .symbol (mem_edges_rename.mpr ⟨_, he, rfl⟩) ih

/-- A path from a renamed state is a renamed path. -/
theorem path_of_rename {p q : State} {w : Word} (hp : p ∈ A.states)
    (h : (A.rename f).Path (f p) w q) : ∃ r, A.Path p w r ∧ f r = q := by
  generalize hs : f p = s at h
  induction h generalizing p with
  | refl => exact ⟨p, .refl p, hs⟩
  | epsilon he _ ih =>
    subst hs
    obtain ⟨r, hr, hfr⟩ := (mem_edges_rename_from hA hf hp).mp he
    obtain ⟨q, hq, hfq⟩ := ih (hA.target_mem _ hr) hfr
    exact ⟨q, .epsilon hr hq, hfq⟩
  | symbol he _ ih =>
    subst hs
    obtain ⟨r, hr, hfr⟩ := (mem_edges_rename_from hA hf hp).mp he
    obtain ⟨q, hq, hfq⟩ := ih (hA.target_mem _ hr) hfr
    exact ⟨q, .symbol hr hq, hfq⟩

/-- **Renaming changes the meaning of no state.** -/
theorem rename_languageFrom {p : State} (hp : p ∈ A.states) (w : Word) :
    (A.rename f).languageFrom (f p) w ↔ A.languageFrom p w := by
  constructor
  · rintro ⟨q, hq, h⟩
    obtain ⟨r, hr, rfl⟩ := path_of_rename hA hf hp h
    exact ⟨r, (mem_finals_rename_iff hA hf (path_target_mem hA hr hp)).mp hq, hr⟩
  · rintro ⟨q, hq, h⟩
    exact ⟨f q, mem_finals_rename.mpr ⟨q, hq, rfl⟩, path_rename h⟩

theorem rename_language (w : Word) : (A.rename f).language w ↔ A.language w :=
  language_of_initial_map (initial_rename A f) fun i hi =>
    rename_languageFrom hA hf (hA.initial_mem i hi) w

theorem rename_deterministic (hAd : A.Deterministic) : (A.rename f).Deterministic := by
  refine ⟨fun p q he => ?_, fun {p a q q'} he he' => ?_⟩
  · obtain ⟨d, hd, he⟩ := mem_edges_rename.mp he
    have hl : d.label = .epsilon := congrArg Edge.label he
    exact hAd.not_epsilon d.source d.target (hl ▸ hd)
  · obtain ⟨⟨s, b, r⟩, hd, he⟩ := mem_edges_rename.mp he
    obtain ⟨rfl, rfl, rfl⟩ := Edge.mk.inj he
    obtain ⟨r', hr', rfl⟩ := (mem_edges_rename_from hA hf (hA.source_mem _ hd)).mp he'
    rw [hAd.target_unique hd hr']

theorem rename_separated (hs : A.Separated) : (A.rename f).Separated := by
  intro p hp q hq h
  obtain ⟨r, hr, rfl⟩ := mem_states_rename.mp hp
  obtain ⟨s, hs', rfl⟩ := mem_states_rename.mp hq
  refine congrArg f (hs r hr s hs' fun w => ?_)
  rw [← rename_languageFrom hA hf hr, ← rename_languageFrom hA hf hs']
  exact h w

end Faithful

theorem rename_complete (hA : A.Complete) : (A.rename f).Complete := by
  intro q hq c hc
  obtain ⟨p, hp, rfl⟩ := mem_states_rename.mp hq
  obtain ⟨r, hr⟩ := hA p hp c hc
  exact ⟨f r, mem_edges_rename.mpr ⟨_, hr, rfl⟩⟩

theorem rename_total (hA : A.Total) (hf : A.Faithful f) : (A.rename f).Total :=
  ⟨rename_valid hA.valid, rename_deterministic hA.valid hf hA.deterministic,
    rename_complete hA.complete⟩

theorem rename_accessible (hacc : ∀ q ∈ A.states, A.Accessible q) {q : State}
    (hq : q ∈ (A.rename f).states) : (A.rename f).Accessible q := by
  obtain ⟨p, hp, rfl⟩ := mem_states_rename.mp hq
  exact (hacc p hp).map (initial_rename A f) fun _ _ _ => path_rename

/-! ## Uniqueness -/

/-- Every state of `A` is paired with a state of `B` that means the same. -/
structure Pairs (A B : Automaton) (f : State → State) : Prop where
  mem : ∀ p ∈ A.states, f p ∈ B.states
  means : ∀ p ∈ A.states, ∀ w, A.languageFrom p w ↔ B.languageFrom (f p) w

namespace Pairs

theorem faithful (h : A.Pairs B f) (hAs : A.Separated) : A.Faithful f := by
  intro p hp q hq he
  refine hAs p hp q hq fun w => ?_
  rw [h.means p hp, he, ← h.means q hq]

/-- The partner is the only state of a separated automaton with the same meaning. -/
theorem eq_of_means (h : A.Pairs B f) (hBs : B.Separated) {p q : State} (hp : p ∈ A.states)
    (hq : q ∈ B.states) (hpq : ∀ w, A.languageFrom p w ↔ B.languageFrom q w) : f p = q :=
  hBs _ (h.mem p hp) q hq fun w => (h.means p hp w).symm.trans (hpq w)

variable (hA : A.Total) (hB : B.Total)
include hA hB

theorem mem_finals_iff (h : A.Pairs B f) {p : State} (hp : p ∈ A.states) :
    f p ∈ B.finals ↔ p ∈ A.finals := by
  rw [← languageFrom_nil hA.deterministic, ← languageFrom_nil hB.deterministic]
  exact (h.means p hp []).symm

/-- Transitions from partners on one symbol lead to partners. -/
theorem target_eq (h : A.Pairs B f) (hBs : B.Separated) {p q r : State} {c : Char}
    (hr : ⟨p, .symbol c, r⟩ ∈ A.edges) (hq : ⟨f p, .symbol c, q⟩ ∈ B.edges) : f r = q := by
  refine h.eq_of_means hBs (hA.valid.target_mem _ hr) (hB.valid.target_mem _ hq) fun w => ?_
  rw [← languageFrom_cons_of_edge hA.deterministic hr,
    ← languageFrom_cons_of_edge hB.deterministic hq]
  exact h.means p (hA.valid.source_mem _ hr) _

theorem mem_edges_iff (h : A.Pairs B f) (hBs : B.Separated) (halph : B.alphabet = A.alphabet)
    {p q : State} {a : Label} (hp : p ∈ A.states) :
    ⟨f p, a, q⟩ ∈ B.edges ↔ ∃ r, ⟨p, a, r⟩ ∈ A.edges ∧ f r = q := by
  cases a with
  | epsilon =>
    refine iff_of_false (hB.deterministic.not_epsilon _ _) ?_
    rintro ⟨r, hr, -⟩
    exact hA.deterministic.not_epsilon _ _ hr
  | symbol c =>
    constructor
    · intro hq
      obtain ⟨r, hr⟩ := hA.complete p hp c (halph ▸ hB.valid.label_mem _ hq c rfl)
      exact ⟨r, hr, h.target_eq hA hB hBs hr hq⟩
    · rintro ⟨r, hr, rfl⟩
      obtain ⟨q, hq⟩ := hB.complete (f p) (h.mem p hp) c
        (halph.symm ▸ hA.valid.label_mem _ hr c rfl)
      exact h.target_eq hA hB hBs hr hq ▸ hq

/-- If every state has a partner, the automata differ by the names of their states only. -/
theorem eq_rename (h : A.Pairs B f) (hBs : B.Separated) (halph : B.alphabet = A.alphabet)
    (honto : ∀ q ∈ B.states, ∃ p ∈ A.states, f p = q) (hinit : B.initial = A.initial.map f) :
    B = A.rename f := by
  have hstates : B.states = (A.rename f).states := by
    refine OrderedSet.ext_mem fun q => ?_
    rw [mem_states_rename]
    exact ⟨honto q, fun ⟨p, hp, he⟩ => he ▸ h.mem p hp⟩
  have hedges : B.edges = (A.rename f).edges := by
    refine OrderedSet.ext_mem fun e => ?_
    rw [mem_edges_rename]
    constructor
    · rcases e with ⟨s, a, q⟩
      intro he
      obtain ⟨p, hp, rfl⟩ := honto s (hB.valid.source_mem _ he)
      obtain ⟨r, hr, rfl⟩ := (h.mem_edges_iff hA hB hBs halph hp).mp he
      exact ⟨_, hr, rfl⟩
    · rintro ⟨d, hd, rfl⟩
      exact (h.mem_edges_iff hA hB hBs halph (hA.valid.source_mem d hd)).mpr ⟨d.target, hd, rfl⟩
  have hfinals : B.finals = (A.rename f).finals := by
    refine OrderedSet.ext_mem fun q => ?_
    rw [mem_finals_rename]
    constructor
    · intro hq
      obtain ⟨p, hp, rfl⟩ := honto q (hB.valid.final_mem q hq)
      exact ⟨p, (h.mem_finals_iff hA hB hp).mp hq, rfl⟩
    · rintro ⟨p, hp, rfl⟩
      exact (h.mem_finals_iff hA hB (hA.valid.final_mem p hp)).mpr hp
  calc B = ⟨B.states, B.alphabet, B.edges, B.initial, B.finals⟩ := rfl
    _ = A.rename f := by
      rw [hstates, halph, hedges, hinit, hfinals]
      rfl

end Pairs

/-- **The minimal automaton is unique** up to the names of its states. -/
theorem exists_rename_eq (hA : A.Total) (hB : B.Total) (hAacc : ∀ q ∈ A.states, A.Accessible q)
    (hBacc : ∀ q ∈ B.states, B.Accessible q) (hAs : A.Separated) (hBs : B.Separated)
    {i j : State} (hi : A.initial = some i) (hj : B.initial = some j)
    (halph : B.alphabet = A.alphabet) (hlang : ∀ w, A.language w ↔ B.language w) :
    ∃ f, A.Faithful f ∧ B = A.rename f := by
  have hpartner : ∀ p ∈ A.states, ∃ q ∈ B.states,
      ∀ w, A.languageFrom p w ↔ B.languageFrom q w := by
    intro p hp
    obtain ⟨i', u, hi', hu⟩ := hAacc p hp
    obtain ⟨q, hq, -, h⟩ := exists_state_of_path hA.valid hA.deterministic hB halph hlang hi' hj hu
    exact ⟨q, hq, h⟩
  choose! f hmem hmeans using hpartner
  have h : A.Pairs B f := ⟨hmem, hmeans⟩
  refine ⟨f, h.faithful hAs, h.eq_rename hA hB hBs halph (fun q hq => ?_) ?_⟩
  · obtain ⟨j', u, hj', hu⟩ := hBacc q hq
    obtain ⟨p, hp, -, hpq⟩ := exists_state_of_path hB.valid hB.deterministic hA halph.symm
      (fun w => (hlang w).symm) hj' hi hu
    exact ⟨p, hp, h.eq_of_means hBs hp hq fun w => (hpq w).symm⟩
  · have hij : f i = j := by
      refine h.eq_of_means hBs (hA.valid.initial_mem i hi) (hB.valid.initial_mem j hj) fun w => ?_
      rw [← language_eq_languageFrom hi, ← language_eq_languageFrom hj]
      exact hlang w
    rw [hi, hj, Option.map_some, hij]

end Automaton

end RegularLanguages
