import Std.Data.HashMap.Lemmas
import RegularLanguages.Automaton.Elimination
import RegularLanguages.Proofs.Automaton.Reachability
import RegularLanguages.Proofs.Regex.Simplification

/-!
# The expression of an automaton denotes its language

A walk goes from node to node along the expressions that stand between them (`Walk`), and spells
a word of each expression that it follows. Eliminating a state keeps the words of the walks that
pass through the remaining states only: a part of a walk that goes through the eliminated state,
any number of times around it, becomes a single step. When no state remains, a walk from source
to sink is one step, so the expression that stands there is the language.

Results:
* `links_eliminate`, `languageOf_through`: what one elimination adds between two nodes.
* **`walk_eliminate_iff`**: eliminating a state keeps the words between the remaining nodes.
* `walk_connections_iff`: before any elimination, the walks from source to sink spell the
  language of the automaton.
* **`toRegex_eq_none_iff_and_matches_iff`**: no expression comes out iff no word is accepted, and
  an expression that comes out denotes the words that are accepted.
-/

namespace RegularLanguages

namespace Connections

variable {M N : Connections} {i j k : Node} {u v w : Word}

/-- The word is denoted by the expression from `i` to `j`. -/
def Links (M : Connections) (i : Node) (w : Word) (j : Node) : Prop :=
  Regex.languageOf (M.between i j) w

/-! ## Adding expressions -/

theorem links_add {r : Regex} {s t : Node} :
    (M.add s t r).Links i w j ↔ M.Links i w j ∨ s = i ∧ t = j ∧ r.Matches w := by
  unfold Links add between
  rw [Std.HashMap.getElem?_insert]
  by_cases h : s = i ∧ t = j
  · obtain ⟨rfl, rfl⟩ := h
    rw [if_pos (by simp)]
    simpa [Regex.languageOf] using Regex.matches_adjoin
  · have hne : ((s, t) == (i, j)) = false := by simpa using h
    rw [hne]
    simp only [Bool.false_eq_true, if_false]
    rw [← and_assoc]
    exact (or_iff_left fun hr => h hr.1).symm

/-- Expressions that are added one after the other, those that are missing left out. -/
theorem links_foldl_add {α : Type} (s t : α → Node) (r : α → Option Regex) :
    ∀ (xs : List α) (M : Connections),
      (xs.foldl (fun M x => match r x with
        | some e => M.add (s x) (t x) e
        | none => M) M).Links i w j ↔
      M.Links i w j ∨ ∃ x ∈ xs, s x = i ∧ t x = j ∧ Regex.languageOf (r x) w
  | [], M => by simp
  | x :: xs, M => by
    rw [List.foldl_cons, links_foldl_add s t r xs]
    simp only [List.mem_cons, exists_eq_or_imp, ← or_assoc]
    refine or_congr_left ?_
    cases hr : r x with
    | none => simp [Regex.languageOf]
    | some e => exact links_add

/-! ## Going around a node -/

/-- The word leads around `k`, any number of times. -/
def Around (M : Connections) (k : Node) (w : Word) : Prop :=
  match M.between k k with
  | some r => (Regex.star r).Matches w
  | none => w = []

theorem around_nil (M : Connections) (k : Node) : M.Around k [] := by
  unfold Around
  cases M.between k k with
  | none => rfl
  | some r => exact .starNil

/-- Once more around the node. -/
theorem Around.append_link (h : M.Around k w) (hu : M.Links k u k) : M.Around k (w ++ u) := by
  unfold Around Links at *
  cases hk : M.between k k with
  | none =>
    rw [hk] at hu
    exact hu.elim
  | some r =>
    rw [hk] at h hu
    have hone : (Regex.star r).Matches (u ++ []) := .starAppend hu .starNil
    rw [List.append_nil] at hone
    exact h.star_append hone

/-- What leads from `i` to `j` through `k`. -/
theorem languageOf_through :
    Regex.languageOf (M.through k i j) w ↔
      ∃ u x v, M.Links i u k ∧ M.Around k x ∧ M.Links k v j ∧ u ++ (x ++ v) = w := by
  unfold through Links Around
  cases M.between i k with
  | none => simp [Regex.languageOf]
  | some into =>
    cases M.between k j with
    | none => simp [Regex.languageOf]
    | some out =>
      cases M.between k k with
      | none => simp [Regex.languageOf]
      | some around =>
        simp only [Regex.languageOf, Regex.matches_append, Regex.matches_iterate]
        constructor
        · rintro ⟨_, v, ⟨u, x, hu, hx, rfl⟩, hv, rfl⟩
          exact ⟨u, x, v, hu, hx, hv, (List.append_assoc u x v).symm⟩
        · rintro ⟨u, x, v, hu, hx, hv, rfl⟩
          exact ⟨u ++ x, v, ⟨u, x, hu, hx, rfl⟩, hv, List.append_assoc u x v⟩

/-- **An elimination adds between the remaining nodes what leads through the eliminated one**,
and changes nothing else. -/
theorem links_eliminate {remaining : List Node} :
    (M.eliminate k remaining).Links i w j ↔
      M.Links i w j ∨ (i ∈ remaining ∧ j ∈ remaining) ∧
        Regex.languageOf (M.through k i j) w := by
  have hfold := links_foldl_add (i := i) (j := j) (w := w) Prod.fst Prod.snd
    (fun p => M.through k p.1 p.2)
    (remaining.flatMap fun i => remaining.map fun j => (i, j)) M
  refine hfold.trans (or_congr_right ?_)
  simp only [List.mem_flatMap, List.mem_map]
  constructor
  · rintro ⟨⟨s, t⟩, ⟨s', hs, t', ht, hst⟩, rfl, rfl, hw⟩
    obtain ⟨rfl, rfl⟩ := Prod.mk.inj hst
    exact ⟨⟨hs, ht⟩, hw⟩
  · rintro ⟨⟨hi, hj⟩, hw⟩
    exact ⟨(i, j), ⟨i, hi, j, hj, rfl⟩, rfl, rfl, hw⟩

/-! ## Walks -/

/-- The word leads from one node to another along expressions, through the given states only. -/
inductive Walk (M : Connections) (inner : List State) : Node → Word → Node → Prop
  | link {i j : Node} {w : Word} : M.Links i w j → Walk M inner i w j
  | step {i j : Node} {p : State} {u v : Word} : p ∈ inner → M.Links i u (.state p) →
      Walk M inner (.state p) v j → Walk M inner i (u ++ v) j

variable {p : State} {inner rest : List State}

theorem Walk.trans (hp : p ∈ inner) (h : M.Walk inner i u (.state p))
    (h' : M.Walk inner (.state p) v j) : M.Walk inner i (u ++ v) j := by
  generalize hk : Node.state p = k at h
  induction h with
  | link h =>
    subst hk
    exact .step hp h h'
  | step hq h _ ih =>
    rw [List.append_assoc]
    exact .step hq h (ih hk)

/-- A walk may go around a state before it goes on. -/
theorem Walk.around (hp : p ∈ inner) (hu : M.Around (.state p) u)
    (h : M.Walk inner (.state p) v j) : M.Walk inner (.state p) (u ++ v) j := by
  unfold Around at hu
  cases hk : M.between (.state p) (.state p) with
  | none =>
    rw [hk] at hu
    rw [hu]
    exact h
  | some r =>
    rw [hk] at hu
    replace hu : (Regex.star r).Matches u := hu
    induction hu using Regex.Matches.star_induction with
    | nil => exact h
    | append a b ha _ ih =>
      have hlink : M.Links (.state p) a (.state p) := by
        unfold Links
        rw [hk]
        exact ha
      rw [List.append_assoc]
      exact .step hp hlink ih

/-- The nodes between which an elimination adds expressions: the states that remain and the two
ends. -/
abbrev outer (rest : List State) : List Node := rest.map .state ++ [.source, .sink]

theorem state_mem_outer (hp : p ∈ rest) : Node.state p ∈ outer rest :=
  List.mem_append_left _ (List.mem_map.mpr ⟨p, hp, rfl⟩)

theorem walk_of_walk_eliminate (h : (M.eliminate (.state p) (outer rest)).Walk rest i w j) :
    M.Walk (p :: rest) i w j := by
  have hp : p ∈ p :: rest := List.mem_cons_self
  have hlink {i j : Node} {w : Word}
      (h : (M.eliminate (.state p) (outer rest)).Links i w j) : M.Walk (p :: rest) i w j := by
    rcases links_eliminate.mp h with h | ⟨-, h⟩
    · exact .link h
    · obtain ⟨u, x, v, hu, hx, hv, rfl⟩ := languageOf_through.mp h
      exact .step hp hu (.around hp hx (.link hv))
  induction h with
  | link h => exact hlink h
  | step hq h _ ih => exact .trans (List.mem_cons_of_mem p hq) (hlink h) ih

/-- The induction goes along the walk. At a walk that starts in the eliminated state it supplies
what the walk does before: a step into this state and a number of turns around it. -/
theorem walk_eliminate_of_walk (hj : j ∈ outer rest) (h : M.Walk (p :: rest) i w j) :
    (i ∈ outer rest → (M.eliminate (.state p) (outer rest)).Walk rest i w j) ∧
      (i = .state p → ∀ s ∈ outer rest, ∀ u x, M.Links s u (.state p) →
        M.Around (.state p) x →
          (M.eliminate (.state p) (outer rest)).Walk rest s (u ++ (x ++ w)) j) := by
  have hthrough {s t : Node} {u x v : Word} (hs : s ∈ outer rest) (ht : t ∈ outer rest)
      (hu : M.Links s u (.state p)) (hx : M.Around (.state p) x) (hv : M.Links (.state p) v t) :
      (M.eliminate (.state p) (outer rest)).Links s (u ++ (x ++ v)) t :=
    links_eliminate.mpr (Or.inr
      ⟨⟨hs, ht⟩, languageOf_through.mpr ⟨u, x, v, hu, hx, hv, rfl⟩⟩)
  induction h with
  | link h =>
    refine ⟨fun _ => .link (links_eliminate.mpr (Or.inl h)), ?_⟩
    rintro rfl s hs u x hu hx
    exact .link (hthrough hs hj hu hx h)
  | @step i j q a b hq h _ ih =>
    obtain ⟨ih, ihp⟩ := ih hj
    have hcases : q = p ∨ q ∈ rest := List.mem_cons.mp hq
    constructor
    · intro hi
      rcases hcases with rfl | hq
      · exact ihp rfl i hi a [] h (around_nil M _)
      · exact .step hq (links_eliminate.mpr (Or.inl h)) (ih (state_mem_outer hq))
    · rintro rfl s hs u x hu hx
      rcases hcases with rfl | hq
      · have hturn := ihp rfl s hs u (x ++ a) hu (hx.append_link h)
        rwa [List.append_assoc] at hturn
      · have hstep := Walk.step hq (hthrough hs (state_mem_outer hq) hu hx h)
          (ih (state_mem_outer hq))
        simpa only [List.append_assoc] using hstep

/-- **Eliminating a state keeps the words that lead from one remaining node to another.** -/
theorem walk_eliminate_iff (hi : i ∈ outer rest) (hj : j ∈ outer rest) :
    (M.eliminate (.state p) (outer rest)).Walk rest i w j ↔ M.Walk (p :: rest) i w j :=
  ⟨walk_of_walk_eliminate, fun h => (walk_eliminate_of_walk hj h).1 hi⟩

/-- When all states are eliminated, the walks from source to sink have become one step. -/
theorem links_eliminateAll_iff : ∀ (states : List State) (M : Connections),
    (M.eliminateAll states).Links .source w .sink ↔ M.Walk states .source w .sink
  | [], M => by
    constructor
    · exact .link
    · intro h
      cases h with
      | link h => exact h
      | step hp => exact absurd hp List.not_mem_nil
  | p :: rest, M => by
    rw [eliminateAll, links_eliminateAll_iff rest]
    exact walk_eliminate_iff (by simp) (by simp)

end Connections

namespace Automaton

variable {A : Automaton} {i j : Node} {w : Word}

/-! ## The automaton as connections -/

/-- What stands between two nodes before any elimination. -/
theorem links_connections :
    A.connections.Links i w j ↔
      (((∃ e ∈ A.edges, .state e.source = i ∧ .state e.target = j ∧
            (Regex.ofLabel e.label).Matches w) ∨
          ∃ q ∈ A.states, .state q = i ∧ .state q = j ∧ w = []) ∨
        ∃ q, A.initial = some q ∧ .source = i ∧ .state q = j ∧ w = []) ∨
      ∃ q ∈ A.finals, .state q = i ∧ .sink = j ∧ w = [] := by
  have hempty : (⟨∅⟩ : Connections).Links i w j ↔ False := by
    simp [Connections.Links, Connections.between, Regex.languageOf]
  have hedges := Connections.links_foldl_add (i := i) (j := j) (w := w)
    (fun e : Edge => .state e.source) (fun e => .state e.target)
    (fun e => some (.ofLabel e.label)) A.edges.toList ⟨∅⟩
  rw [hempty, false_or] at hedges
  have hloop (q : State) : Regex.languageOf (some .epsilon) w ↔ w = [] := Regex.matches_epsilon
  have hempties {s t : State → Node} (xs : List State) (M : Connections) :=
    Connections.links_foldl_add (i := i) (j := j) (w := w) s t (fun _ => some .epsilon) xs M
  unfold connections
  refine (hempties _ _).trans (or_congr ((hempties _ _).trans (or_congr
    ((hempties _ _).trans (or_congr hedges ?_)) ?_)) ?_)
  · exact exists_congr fun q => and_congr_right fun _ => by rw [hloop q]
  · exact exists_congr fun q => and_congr Option.mem_toList (by rw [hloop q])
  · exact exists_congr fun q => and_congr_right fun _ => by rw [hloop q]

/-- What is still to be read at a node: a word of the automaton at the source, what leads to a
final state at a state, and nothing at the sink. -/
def languageAt (A : Automaton) : Node → Language
  | .source => A.language
  | .state p => A.languageFrom p
  | .sink => fun w => w = []

theorem languageAt_of_links {v : Word} (h : A.connections.Links i w j)
    (hv : A.languageAt j v) : A.languageAt i (w ++ v) := by
  rcases links_connections.mp h with ((⟨⟨p, a, q⟩, he, rfl, rfl, hw⟩ | ⟨q, _, rfl, rfl, rfl⟩) |
    ⟨q, hq, rfl, rfl, rfl⟩) | ⟨q, hq, rfl, rfl, rfl⟩
  · obtain ⟨f, hf, hp⟩ := hv
    cases a with
    | epsilon =>
      rw [Regex.matches_epsilon.mp hw]
      exact ⟨f, hf, .epsilon he hp⟩
    | symbol c =>
      rw [Regex.matches_symbol.mp hw]
      exact ⟨f, hf, .symbol he hp⟩
  · exact hv
  · obtain ⟨f, hf, hp⟩ := hv
    exact ⟨q, f, hq, hf, hp⟩
  · obtain rfl : v = [] := hv
    exact ⟨q, hq, .refl q⟩

/-- **Before any elimination, the walks from source to sink spell the language.** -/
theorem walk_connections_iff (hA : A.Valid) :
    A.connections.Walk A.states.toList .source w .sink ↔ A.language w := by
  constructor
  · intro h
    have hwalk : ∀ {i j : Node} {w v : Word}, A.connections.Walk A.states.toList i w j →
        A.languageAt j v → A.languageAt i (w ++ v) := by
      intro i j w v h hv
      induction h with
      | link h => exact languageAt_of_links h hv
      | step _ h _ ih =>
        rw [List.append_assoc]
        exact languageAt_of_links h (ih hv)
    have hw := hwalk h (v := []) rfl
    rwa [List.append_nil] at hw
  · rintro ⟨p, f, hp, hf, h⟩
    have hstates : p ∈ A.states := hA.initial_mem p hp
    have hwalk : A.connections.Walk A.states.toList (.state p) w .sink := by
      clear hp hstates
      induction h with
      | refl => exact .link (links_connections.mpr (Or.inr ⟨_, hf, rfl, rfl, rfl⟩))
      | epsilon he _ ih =>
        refine .step (u := []) (hA.target_mem _ he) (links_connections.mpr ?_) (ih hf)
        exact Or.inl (Or.inl (Or.inl ⟨_, he, rfl, rfl, .epsilon⟩))
      | symbol he _ ih =>
        refine .step (u := [_]) (hA.target_mem _ he) (links_connections.mpr ?_) (ih hf)
        exact Or.inl (Or.inl (Or.inl ⟨_, he, rfl, rfl, .symbol _⟩))
    refine .step (u := []) hstates (links_connections.mpr ?_) hwalk
    exact Or.inl (Or.inr ⟨p, hp, rfl, rfl, rfl⟩)

/-! ## The expression -/

/-- What comes out of the elimination denotes the language. -/
theorem languageOf_toRegex (hA : A.Valid) :
    Regex.languageOf A.toRegex w ↔ A.language w := by
  rw [← prune_language]
  unfold toRegex
  simp only
  split
  · rename_i hi
    exact iff_of_false id (not_language_of_initial_eq_none (Option.isNone_iff_eq_none.mp hi) w)
  · exact (Connections.links_eliminateAll_iff _ _).trans (walk_connections_iff (prune_valid hA))

/-- **The expression of an automaton.** There is none iff no word is accepted, and otherwise it
denotes the accepted words. -/
theorem toRegex_eq_none_iff_and_matches_iff (hA : A.Valid) :
    (A.toRegex = none ↔ ∀ w, A.accepts w = false) ∧
      ∀ r, A.toRegex = some r → ∀ w, r.Matches w ↔ A.accepts w = true := by
  have hlang (w : Word) : Regex.languageOf A.toRegex w ↔ A.accepts w = true := by
    rw [languageOf_toRegex hA, accepts_iff]
  constructor
  · constructor
    · intro h w
      rw [← Bool.not_eq_true, ← hlang w, h]
      exact id
    · intro h
      cases hr : A.toRegex with
      | none => rfl
      | some r =>
        obtain ⟨w, hw⟩ := Regex.exists_matches r
        rw [hr] at hlang
        exact absurd ((hlang w).mp hw) (by simp [h w])
  · intro r hr w
    rw [← hlang w, hr]
    rfl

/-- Any number of `a`, then a `b`, with a transition on the empty word in between. -/
def repeatThenEnd : Automaton where
  states := .ofList [⟨"p"⟩, ⟨"q"⟩, ⟨"r"⟩]
  alphabet := .ofList ['a', 'b']
  edges := .ofList [⟨⟨"p"⟩, .symbol 'a', ⟨"p"⟩⟩, ⟨⟨"p"⟩, .epsilon, ⟨"q"⟩⟩,
    ⟨⟨"q"⟩, .symbol 'b', ⟨"r"⟩⟩]
  initial := some ⟨"p"⟩
  finals := .ofList [⟨"r"⟩]

theorem repeatThenEnd_valid : repeatThenEnd.Valid := by decide

/-- Reading an `a` and a `b`. -/
theorem repeatThenEnd_accepts : repeatThenEnd.accepts ['a', 'b'] = true := by
  have hpath : repeatThenEnd.Path ⟨"p"⟩ ['a', 'b'] ⟨"r"⟩ :=
    .symbol (q := ⟨"p"⟩) (by decide)
      (.epsilon (q := ⟨"q"⟩) (by decide) (.symbol (by decide) (.refl _)))
  exact accepts_iff.mpr ⟨_, _, rfl, by decide, hpath⟩

/-- The expression of an automaton with a loop and a transition on the empty word. -/
theorem exists_toRegex_repeatThenEnd :
    ∃ r, repeatThenEnd.toRegex = some r ∧ r.Matches ['a', 'b'] := by
  obtain ⟨hnone, hsome⟩ := toRegex_eq_none_iff_and_matches_iff repeatThenEnd_valid
  cases hr : repeatThenEnd.toRegex with
  | none =>
    have hempty := hnone.mp hr ['a', 'b']
    rw [repeatThenEnd_accepts] at hempty
    exact absurd hempty (by simp)
  | some r => exact ⟨r, rfl, (hsome r hr _).mpr repeatThenEnd_accepts⟩

end Automaton

end RegularLanguages
