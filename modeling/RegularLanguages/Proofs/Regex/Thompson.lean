import RegularLanguages.Proofs.Automaton.Acceptance
import RegularLanguages.Proofs.FreshNames
import RegularLanguages.Proofs.OrderedSet
import RegularLanguages.Proofs.Regex.Reading
import RegularLanguages.Regex.Thompson

/-!
# Thompson's automaton accepts the language of the expression

Every node of a fragment has words that may still be read there until the exit is reached
(`afterNode`). They are put together from those of the parts: what follows a part of a
concatenation or of a repetition is added behind them. Going back along a transition keeps them,
so whatever a path to the exit spells is a word of the expression; conversely each word of the
expression is spelled by a path through the fragments of the parts.

Results:
* `fragment_within`: entry, exit and transitions of a fragment lie within its own numbers.
* `fragment_oneWay`: no transition enters the entry or leaves the exit.
* `afterNode_entry`, `afterNode_exit`, **`afterNode_of_mem_edges`**: the words that may still be
  read.
* **`path_of_matches`**: a word of the expression leads through the fragment, also within a
  larger automaton.
* **`accepts_thompson_iff`**: the automaton accepts exactly the words of the expression.
* `size_thompson`, **`thompson_oneWay`**: how many states it has, and which of them are the ends.
-/

namespace RegularLanguages

namespace Regex

variable {l r : Regex} {n i j : Nat} {a : Label} {u v w : Word}

/-! ## Fragments keep to their numbers -/

/-- The nodes of a fragment are numbered from `n` on, below its next free number. -/
structure Fragment.Within (piece : Fragment) (n : Nat) : Prop where
  entry : n ≤ piece.entry ∧ piece.entry < piece.next
  exit : n ≤ piece.exit ∧ piece.exit < piece.next
  edges : ∀ {i a j}, (i, a, j) ∈ piece.edges →
    (n ≤ i ∧ i < piece.next) ∧ n ≤ j ∧ j < piece.next

theorem fragment_within : ∀ (r : Regex) (n : Nat), (r.fragment n).Within n
  | epsilon, n => by
    constructor
    case edges =>
      intro i a j he
      simp only [fragment, List.mem_singleton, Prod.mk.injEq] at he ⊢
      omega
    all_goals simp [fragment]
  | symbol c, n => by
    constructor
    case edges =>
      intro i a j he
      simp only [fragment, List.mem_singleton, Prod.mk.injEq] at he ⊢
      omega
    all_goals simp [fragment]
  | union l r, n => by
    have hl := fragment_within l (n + 1)
    have hr := fragment_within r (l.fragment (n + 1)).next
    have hle := hl.entry; have hlx := hl.exit; have hre := hr.entry; have hrx := hr.exit
    constructor
    case edges =>
      intro i a j he
      simp only [fragment, List.mem_append, List.mem_cons, List.not_mem_nil, or_false,
        Prod.mk.injEq] at he ⊢
      rcases he with (he | he) | he
      · omega
      · have := hl.edges he
        omega
      · have := hr.edges he
        omega
    all_goals (simp only [fragment]; omega)
  | concat l r, n => by
    have hl := fragment_within l n
    have hr := fragment_within r (l.fragment n).next
    have hle := hl.entry; have hlx := hl.exit; have hre := hr.entry; have hrx := hr.exit
    constructor
    case edges =>
      intro i a j he
      simp only [fragment, List.cons_append, List.mem_cons, List.mem_append,
        Prod.mk.injEq] at he ⊢
      rcases he with he | he | he
      · omega
      · have := hl.edges he
        omega
      · have := hr.edges he
        omega
    all_goals (simp only [fragment]; omega)
  | star r, n => by
    have hr := fragment_within r (n + 1)
    have hre := hr.entry; have hrx := hr.exit
    constructor
    case edges =>
      intro i a j he
      simp only [fragment, List.mem_append, List.mem_cons, List.not_mem_nil, or_false,
        Prod.mk.injEq] at he ⊢
      rcases he with he | he
      · omega
      · have := hr.edges he
        omega
    all_goals (simp only [fragment]; omega)

/-- A fragment is entered at its entry only, and left at its exit only. -/
structure Fragment.OneWay (piece : Fragment) : Prop where
  entry_ne_exit : piece.entry ≠ piece.exit
  target_ne_entry : ∀ {i a j}, (i, a, j) ∈ piece.edges → j ≠ piece.entry
  source_ne_exit : ∀ {i a j}, (i, a, j) ∈ piece.edges → i ≠ piece.exit

theorem fragment_oneWay : ∀ (r : Regex) (n : Nat), (r.fragment n).OneWay
  | epsilon, n => by
    constructor
    case entry_ne_exit => simp [fragment]
    all_goals
      intro i a j he
      simp only [fragment, List.mem_singleton, Prod.mk.injEq] at he ⊢
      omega
  | symbol c, n => by
    constructor
    case entry_ne_exit => simp [fragment]
    all_goals
      intro i a j he
      simp only [fragment, List.mem_singleton, Prod.mk.injEq] at he ⊢
      omega
  | union l r, n => by
    -- the parts lie between the new entry and the new exit
    have hl := fragment_within l (n + 1)
    have hr := fragment_within r (l.fragment (n + 1)).next
    have hle := hl.entry; have hlx := hl.exit; have hre := hr.entry; have hrx := hr.exit
    constructor
    case entry_ne_exit =>
      simp only [fragment]
      omega
    all_goals
      intro i a j he
      simp only [fragment, List.mem_append, List.mem_cons, List.not_mem_nil, or_false,
        Prod.mk.injEq] at he ⊢
      rcases he with (he | he) | he
      · omega
      · have := hl.edges he
        omega
      · have := hr.edges he
        omega
  | concat l r, n => by
    -- the entry belongs to the left part and the exit to the right one
    have hl := fragment_within l n
    have hr := fragment_within r (l.fragment n).next
    have hle := hl.entry; have hlx := hl.exit; have hre := hr.entry; have hrx := hr.exit
    constructor
    case entry_ne_exit =>
      simp only [fragment]
      omega
    case target_ne_entry =>
      intro i a j he
      simp only [fragment, List.cons_append, List.mem_cons, List.mem_append,
        Prod.mk.injEq] at he ⊢
      rcases he with he | he | he
      · omega
      · exact (fragment_oneWay l n).target_ne_entry he
      · have := hr.edges he
        omega
    case source_ne_exit =>
      intro i a j he
      simp only [fragment, List.cons_append, List.mem_cons, List.mem_append,
        Prod.mk.injEq] at he ⊢
      rcases he with he | he | he
      · omega
      · have := hl.edges he
        omega
      · exact (fragment_oneWay r (l.fragment n).next).source_ne_exit he
  | star r, n => by
    have hr := fragment_within r (n + 1)
    have hre := hr.entry; have hrx := hr.exit
    constructor
    case entry_ne_exit =>
      simp only [fragment]
      omega
    all_goals
      intro i a j he
      simp only [fragment, List.mem_append, List.mem_cons, List.not_mem_nil, or_false,
        Prod.mk.injEq] at he ⊢
      rcases he with he | he
      · omega
      · have := hr.edges he
        omega

/-- The nodes of an expression that bring an entry and an exit of their own: all of them but the
concatenations, which use those of their sides. -/
def ownEnds : Regex → Nat
  | epsilon => 1
  | symbol _ => 1
  | union l r => l.ownEnds + r.ownEnds + 1
  | concat l r => l.ownEnds + r.ownEnds
  | star r => r.ownEnds + 1

theorem next_fragment : ∀ (r : Regex) (n : Nat), (r.fragment n).next = n + 2 * r.ownEnds
  | epsilon, n => rfl
  | symbol c, n => rfl
  | union l r, n => by
    simp only [fragment, ownEnds, next_fragment]
    omega
  | concat l r, n => by
    simp only [fragment, ownEnds, next_fragment]
    omega
  | star r, n => by
    simp only [fragment, ownEnds, next_fragment]
    omega

/-! ## What may still be read -/

/-- The words that may still be read at a node of the fragment until its exit is reached. -/
def afterNode : Regex → Nat → Nat → Language
  | epsilon, _, _ => fun w => w = []
  | symbol c, n, i => if i = n then (symbol c).Matches else fun w => w = []
  | union l r, n, i =>
    let left := l.fragment (n + 1)
    let right := r.fragment left.next
    if i = n then (union l r).Matches
    else if i < left.next then l.afterNode (n + 1) i
    else if i < right.next then r.afterNode left.next i
    else fun w => w = []
  | concat l r, n, i =>
    let left := l.fragment n
    if i < left.next then followedBy (l.afterNode n i) r.Matches else r.afterNode left.next i
  | star r, n, i =>
    let body := r.fragment (n + 1)
    if i = n then (star r).Matches
    else if i < body.next then followedBy (r.afterNode (n + 1) i) (star r).Matches
    else fun w => w = []

theorem afterNode_symbol {c : Char} : (symbol c).afterNode n i =
    if i = n then (symbol c).Matches else fun w => w = [] := rfl

theorem afterNode_union : (union l r).afterNode n i =
    if i = n then (union l r).Matches
    else if i < (l.fragment (n + 1)).next then l.afterNode (n + 1) i
    else if i < (r.fragment (l.fragment (n + 1)).next).next then
      r.afterNode (l.fragment (n + 1)).next i
    else fun w => w = [] := rfl

theorem afterNode_concat : (concat l r).afterNode n i =
    if i < (l.fragment n).next then followedBy (l.afterNode n i) r.Matches
    else r.afterNode (l.fragment n).next i := rfl

theorem afterNode_star : (star r).afterNode n i =
    if i = n then (star r).Matches
    else if i < (r.fragment (n + 1)).next then
      followedBy (r.afterNode (n + 1) i) (star r).Matches
    else fun w => w = [] := rfl

theorem afterNode_symbol_entry {c : Char} : (symbol c).afterNode n n = (symbol c).Matches := by
  rw [afterNode_symbol, if_pos rfl]

theorem afterNode_symbol_exit {c : Char} : (symbol c).afterNode n (n + 1) = fun w => w = [] := by
  rw [afterNode_symbol, if_neg (by omega)]

theorem afterNode_union_entry : (union l r).afterNode n n = (union l r).Matches := by
  rw [afterNode_union, if_pos rfl]

theorem afterNode_union_left (hn : n < i) (hi : i < (l.fragment (n + 1)).next) :
    (union l r).afterNode n i = l.afterNode (n + 1) i := by
  rw [afterNode_union, if_neg (by omega), if_pos hi]

theorem afterNode_union_right (hn : n < i) (hi : (l.fragment (n + 1)).next ≤ i)
    (hi' : i < (r.fragment (l.fragment (n + 1)).next).next) :
    (union l r).afterNode n i = r.afterNode (l.fragment (n + 1)).next i := by
  rw [afterNode_union, if_neg (by omega), if_neg (by omega), if_pos hi']

theorem afterNode_union_exit :
    (union l r).afterNode n ((union l r).fragment n).exit = fun w => w = [] := by
  have hl := (fragment_within l (n + 1)).entry
  have hr := (fragment_within r (l.fragment (n + 1)).next).entry
  have hexit {i : Nat} (hi : (r.fragment (l.fragment (n + 1)).next).next ≤ i) :
      (union l r).afterNode n i = fun w => w = [] := by
    rw [afterNode_union, if_neg (by omega), if_neg (by omega), if_neg (by omega)]
  exact hexit (Nat.le_refl _)

theorem afterNode_concat_left (hi : i < (l.fragment n).next) :
    (concat l r).afterNode n i = followedBy (l.afterNode n i) r.Matches := by
  rw [afterNode_concat, if_pos hi]

theorem afterNode_concat_right (hi : (l.fragment n).next ≤ i) :
    (concat l r).afterNode n i = r.afterNode (l.fragment n).next i := by
  rw [afterNode_concat, if_neg (by omega)]

theorem afterNode_star_entry : (star r).afterNode n n = (star r).Matches := by
  rw [afterNode_star, if_pos rfl]

theorem afterNode_star_inner (hn : n < i) (hi : i < (r.fragment (n + 1)).next) :
    (star r).afterNode n i = followedBy (r.afterNode (n + 1) i) (star r).Matches := by
  rw [afterNode_star, if_neg (by omega), if_pos hi]

theorem afterNode_star_exit :
    (star r).afterNode n ((star r).fragment n).exit = fun w => w = [] := by
  have hr := (fragment_within r (n + 1)).entry
  have hexit {i : Nat} (hi : (r.fragment (n + 1)).next ≤ i) :
      (star r).afterNode n i = fun w => w = [] := by
    rw [afterNode_star, if_neg (by omega), if_neg (by omega)]
  exact hexit (Nat.le_refl _)

/-- At the entry, only words of the expression may be read. -/
theorem afterNode_entry : ∀ {r : Regex} {n : Nat} {w : Word},
    r.afterNode n (r.fragment n).entry w → r.Matches w
  | epsilon, _, _, h => matches_epsilon.mpr h
  | symbol c, n, w, h => by
    rw [fragment, afterNode_symbol_entry] at h
    exact h
  | union l r, n, w, h => by
    rw [fragment, afterNode_union_entry] at h
    exact h
  | concat l r, n, w, h => by
    rw [fragment, afterNode_concat_left (fragment_within l n).entry.2] at h
    obtain ⟨u, v, hu, hv, rfl⟩ := h
    exact .concat (afterNode_entry hu) hv
  | star r, n, w, h => by
    rw [fragment, afterNode_star_entry] at h
    exact h

/-- At the exit, nothing remains to be read. -/
theorem afterNode_exit : ∀ (r : Regex) (n : Nat),
    r.afterNode n (r.fragment n).exit = fun w => w = []
  | epsilon, _ => rfl
  | symbol c, n => afterNode_symbol_exit
  | union l r, n => afterNode_union_exit
  | concat l r, n => by
    rw [fragment, afterNode_concat_right (fragment_within r _).exit.1]
    exact afterNode_exit r _
  | star r, n => afterNode_star_exit

theorem afterNode_exit_nil (r : Regex) (n : Nat) : r.afterNode n (r.fragment n).exit [] := by
  rw [afterNode_exit]

theorem eq_nil_of_afterNode_exit (h : r.afterNode n (r.fragment n).exit w) : w = [] := by
  rwa [afterNode_exit] at h

/-- **Going back along a transition** puts its symbol in front of what may still be read. -/
theorem afterNode_of_mem_edges : ∀ {r : Regex} {n i j : Nat} {a : Label} {w : Word},
    (i, a, j) ∈ (r.fragment n).edges → r.afterNode n j w → r.afterNode n i (a.symbol?.toList ++ w)
  | epsilon, n, i, j, a, w, he, h => by
    obtain ⟨rfl, rfl, rfl⟩ : i = n ∧ a = .epsilon ∧ j = n + 1 := by simpa [fragment] using he
    exact h
  | symbol c, n, i, j, a, w, he, h => by
    obtain ⟨rfl, rfl, rfl⟩ : i = n ∧ a = .symbol c ∧ j = n + 1 := by simpa [fragment] using he
    rw [afterNode_symbol_exit] at h
    rw [afterNode_symbol_entry, h]
    exact .symbol c
  | union l r, n, i, j, a, w, he, h => by
    have hl := fragment_within l (n + 1)
    have hr := fragment_within r (l.fragment (n + 1)).next
    have hle := hl.entry; have hlx := hl.exit; have hre := hr.entry; have hrx := hr.exit
    simp only [fragment, List.mem_append, List.mem_cons, List.not_mem_nil, or_false,
      Prod.mk.injEq] at he
    rcases he with ((⟨rfl, rfl, rfl⟩ | ⟨rfl, rfl, rfl⟩ | ⟨rfl, rfl, rfl⟩ | ⟨rfl, rfl, rfl⟩) | he) |
      he
    · rw [afterNode_union_left (by omega) (by omega)] at h
      rw [afterNode_union_entry]
      exact .unionLeft (afterNode_entry h)
    · rw [afterNode_union_left (by omega) (by omega), eq_nil_of_afterNode_exit (r := union l r) h]
      exact afterNode_exit_nil l _
    · rw [afterNode_union_right (by omega) (by omega) (by omega)] at h
      rw [afterNode_union_entry]
      exact .unionRight (afterNode_entry h)
    · rw [afterNode_union_right (by omega) (by omega) (by omega),
        eq_nil_of_afterNode_exit (r := union l r) h]
      exact afterNode_exit_nil r _
    · have hb := hl.edges he
      rw [afterNode_union_left (by omega) (by omega)] at h ⊢
      exact afterNode_of_mem_edges he h
    · have hb := hr.edges he
      rw [afterNode_union_right (by omega) (by omega) (by omega)] at h ⊢
      exact afterNode_of_mem_edges he h
  | concat l r, n, i, j, a, w, he, h => by
    have hl := fragment_within l n
    have hr := fragment_within r (l.fragment n).next
    have hlx := hl.exit; have hre := hr.entry
    simp only [fragment, List.cons_append, List.mem_cons, List.mem_append, Prod.mk.injEq] at he
    rcases he with ⟨rfl, rfl, rfl⟩ | he | he
    · rw [afterNode_concat_right (by omega)] at h
      rw [afterNode_concat_left (by omega)]
      exact ⟨[], w, afterNode_exit_nil l n, afterNode_entry h, rfl⟩
    · have hb := hl.edges he
      rw [afterNode_concat_left (by omega)] at h ⊢
      exact followedBy_append (fun u hu => afterNode_of_mem_edges he hu) h
    · have hb := hr.edges he
      rw [afterNode_concat_right (by omega)] at h ⊢
      exact afterNode_of_mem_edges he h
  | star r, n, i, j, a, w, he, h => by
    have hr := fragment_within r (n + 1)
    have hre := hr.entry; have hrx := hr.exit
    -- going around, from the entry as well as from the exit of the body
    have haround (h : (star r).afterNode n (r.fragment (n + 1)).entry w) : (star r).Matches w := by
      rw [afterNode_star_inner (by omega) (by omega)] at h
      obtain ⟨u, v, hu, hv, rfl⟩ := h
      exact .starAppend (afterNode_entry hu) hv
    simp only [fragment, List.mem_append, List.mem_cons, List.not_mem_nil, or_false,
      Prod.mk.injEq] at he
    rcases he with (⟨rfl, rfl, rfl⟩ | ⟨rfl, rfl, rfl⟩ | ⟨rfl, rfl, rfl⟩ | ⟨rfl, rfl, rfl⟩) | he
    · rw [afterNode_star_entry]
      exact haround h
    · rw [afterNode_star_entry, eq_nil_of_afterNode_exit (r := star r) h]
      exact .starNil
    · rw [afterNode_star_inner (by omega) (by omega)]
      exact ⟨[], w, afterNode_exit_nil r _, haround h, rfl⟩
    · rw [afterNode_star_inner (by omega) (by omega), eq_nil_of_afterNode_exit (r := star r) h]
      exact ⟨[], [], afterNode_exit_nil r _, .starNil, rfl⟩
    · have hb := hr.edges he
      rw [afterNode_star_inner (by omega) (by omega)] at h ⊢
      exact followedBy_append (fun u hu => afterNode_of_mem_edges he hu) h

/-! ## The automaton -/

/-- The state that a node becomes. -/
abbrev node (i : Nat) : State := State.numbered "t" i

section Paths

variable {A : Automaton}

/-- The transitions of the fragment are transitions of the automaton. -/
def Fragment.In (piece : Fragment) (A : Automaton) : Prop :=
  ∀ e ∈ piece.edges, ⟨node e.1, e.2.1, node e.2.2⟩ ∈ A.edges

theorem Fragment.In.edge {piece : Fragment} (h : piece.In A) {i j : Nat} {a : Label}
    (he : (i, a, j) ∈ piece.edges) : ⟨node i, a, node j⟩ ∈ A.edges := h (i, a, j) he

/-- **A word of the expression leads through its fragment**, in every automaton that has the
transitions of the fragment. -/
theorem path_of_matches : ∀ {r : Regex} {n : Nat} {w : Word}, (r.fragment n).In A → r.Matches w →
    A.Path (node (r.fragment n).entry) w (node (r.fragment n).exit)
  | epsilon, n, w, hA, h => by
    rw [matches_epsilon.mp h]
    exact .epsilon (hA.edge (by simp [fragment])) (.refl _)
  | symbol c, n, w, hA, h => by
    rw [matches_symbol.mp h]
    exact .symbol (hA.edge (by simp [fragment])) (.refl _)
  | union l r, n, w, hA, h => by
    have hl : (l.fragment (n + 1)).In A := fun e he => hA e (by simp [fragment, he])
    have hr : (r.fragment (l.fragment (n + 1)).next).In A :=
      fun e he => hA e (by simp [fragment, he])
    rcases matches_union.mp h with h | h
    · have hpath := (path_of_matches hl h).append_epsilon
        (hA.edge (j := (r.fragment (l.fragment (n + 1)).next).next) (by simp [fragment]))
      exact .epsilon (hA.edge (by simp [fragment])) hpath
    · have hpath := (path_of_matches hr h).append_epsilon
        (hA.edge (j := (r.fragment (l.fragment (n + 1)).next).next) (by simp [fragment]))
      exact .epsilon (hA.edge (by simp [fragment])) hpath
  | concat l r, n, w, hA, h => by
    have hl : (l.fragment n).In A := fun e he => hA e (by simp [fragment, he])
    have hr : (r.fragment (l.fragment n).next).In A := fun e he => hA e (by simp [fragment, he])
    obtain ⟨u, v, hu, hv, rfl⟩ := matches_concat.mp h
    have hjoin := hA.edge (i := (l.fragment n).exit) (a := .epsilon)
      (j := (r.fragment (l.fragment n).next).entry) (by simp [fragment])
    exact (path_of_matches hl hu).append (.epsilon hjoin (path_of_matches hr hv))
  | star r, n, w, hA, h => by
    have hr : (r.fragment (n + 1)).In A := fun e he => hA e (by simp [fragment, he])
    have hin := hA.edge (i := n) (a := .epsilon) (j := (r.fragment (n + 1)).entry)
      (by simp [fragment])
    have hagain := hA.edge (i := (r.fragment (n + 1)).exit) (a := .epsilon)
      (j := (r.fragment (n + 1)).entry) (by simp [fragment])
    have hout := hA.edge (i := (r.fragment (n + 1)).exit) (a := .epsilon)
      (j := ((star r).fragment n).exit) (by simp [fragment])
    have haround {v : Word} (hv : (star r).Matches v) :
        A.Path (node (r.fragment (n + 1)).exit) v (node ((star r).fragment n).exit) := by
      induction hv using Matches.star_induction with
      | nil => exact .epsilon hout (.refl _)
      | append u v hu _ ih => exact .epsilon hagain ((path_of_matches hr hu).append ih)
    rcases matches_star.mp h with rfl | ⟨u, v, hu, hv, rfl⟩
    · exact .epsilon (hA.edge (by simp [fragment])) (.refl _)
    · exact .epsilon hin ((path_of_matches hr hu).append (haround hv))

end Paths

theorem mem_edges_thompson {e : Edge} :
    e ∈ r.thompson.edges ↔ ∃ i a j, (i, a, j) ∈ (r.fragment 0).edges ∧ e = ⟨node i, a, node j⟩ := by
  simp only [thompson, OrderedSet.mem_ofList, List.mem_map, Prod.exists]
  constructor
  · rintro ⟨i, a, j, he, rfl⟩
    exact ⟨i, a, j, he, rfl⟩
  · rintro ⟨i, a, j, he, rfl⟩
    exact ⟨i, a, j, he, rfl⟩

/-- What leads from a node to the exit may be read at the node. -/
theorem afterNode_of_languageFrom (h : r.thompson.languageFrom (node i) w) : r.afterNode 0 i w := by
  have hnode {i j : Nat} (h : node i = node j) : i = j := State.numbered_injective h
  refine Automaton.languageFrom_least (L := fun p w => ∀ i, p = node i → r.afterNode 0 i w)
    ?final ?edge h i rfl
  case final =>
    rintro q hq i rfl
    have hq : node i = node (r.fragment 0).exit := by simpa [thompson] using hq
    rw [hnode hq]
    exact afterNode_exit_nil r 0
  case edge =>
    intro e he w hw i hi
    obtain ⟨i', a, j, hmem, rfl⟩ := mem_edges_thompson.mp he
    rw [← hnode hi]
    exact afterNode_of_mem_edges hmem (hw j rfl)

/-- **Thompson's automaton accepts exactly the words of the expression.** -/
theorem accepts_thompson_iff : r.thompson.accepts w = true ↔ r.Matches w := by
  rw [Automaton.accepts_iff]
  constructor
  · intro h
    have hstart : r.thompson.initial = some (node (r.fragment 0).entry) := rfl
    rw [Automaton.language_eq_languageFrom hstart] at h
    exact afterNode_entry (afterNode_of_languageFrom h)
  · intro h
    refine ⟨_, node (r.fragment 0).exit, rfl, by simp [thompson], path_of_matches ?_ h⟩
    exact fun e he => mem_edges_thompson.mpr ⟨_, _, _, he, rfl⟩

theorem states_thompson (r : Regex) :
    r.thompson.states = .ofList ((List.range (2 * r.ownEnds)).map node) := by
  rw [thompson, next_fragment, Nat.zero_add]

theorem size_thompson (r : Regex) : r.thompson.size = 2 * r.ownEnds := by
  have hn : ((List.range (2 * r.ownEnds)).map node).Nodup :=
    List.Nodup.map (fun _ _ => State.numbered_injective) List.nodup_range
  rw [Automaton.size, states_thompson, OrderedSet.size_ofList hn, List.length_map,
    List.length_range]

end Regex

/-- An automaton has one initial and one final state, which are different; no transition enters
the initial state or leaves the final one. -/
structure Automaton.OneWay (A : Automaton) (start stop : State) : Prop where
  initial_eq : A.initial = some start
  finals_eq : A.finals = .ofList [stop]
  start_mem : start ∈ A.states
  stop_mem : stop ∈ A.states
  start_ne_stop : start ≠ stop
  target_ne_start : ∀ e ∈ A.edges, e.target ≠ start
  source_ne_stop : ∀ e ∈ A.edges, e.source ≠ stop

namespace Regex

/-- The entry of the fragment is the initial state, and its exit the final one. -/
theorem thompson_oneWay (r : Regex) :
    r.thompson.OneWay (node (r.fragment 0).entry) (node (r.fragment 0).exit) := by
  have hnode {i j : Nat} (h : i ≠ j) : node i ≠ node j := fun he => h (State.numbered_injective he)
  have hwithin := fragment_within r 0
  have honeWay := fragment_oneWay r 0
  have hstate {i : Nat} (hi : i < (r.fragment 0).next) : node i ∈ r.thompson.states :=
    OrderedSet.mem_ofList.mpr (List.mem_map.mpr ⟨i, List.mem_range.mpr hi, rfl⟩)
  constructor
  case initial_eq => rfl
  case finals_eq => rfl
  case start_mem => exact hstate hwithin.entry.2
  case stop_mem => exact hstate hwithin.exit.2
  case start_ne_stop => exact hnode honeWay.entry_ne_exit
  case target_ne_start =>
    intro e he
    obtain ⟨i, a, j, hmem, rfl⟩ := mem_edges_thompson.mp he
    exact hnode (honeWay.target_ne_entry hmem)
  case source_ne_stop =>
    intro e he
    obtain ⟨i, a, j, hmem, rfl⟩ := mem_edges_thompson.mp he
    exact hnode (honeWay.source_ne_exit hmem)

/-- **Thompson's automaton** accepts exactly the words of the expression. It has one initial and
one final state, is entered at the former and left at the latter, and has two states for each node
of the expression that is not a concatenation. -/
theorem thompson_accepts_iff_and_oneWay (r : Regex) :
    (∀ w, r.thompson.accepts w = true ↔ r.Matches w) ∧
      (∃ start stop, r.thompson.OneWay start stop) ∧
      r.thompson.size = 2 * r.ownEnds :=
  ⟨fun _ => accepts_thompson_iff, ⟨_, _, thompson_oneWay r⟩, size_thompson r⟩

end Regex

end RegularLanguages
