import RegularLanguages.Automaton.Blueprint
import RegularLanguages.Record.Basic
import RegularLanguages.Proofs.Automaton.Determinization
import RegularLanguages.Proofs.Outcome

/-!
# Valid automata are those that can be put together

Edits check what they are given, so they lead from valid automata to valid ones, and so do
blueprints and records, which are carried out as edits. Conversely every valid automaton is put
together by edits, one state, transition and final state after the other.

Results:
* `checkState_eq_ok`, `checkLabel_eq_ok`, `addTransition_eq_ok`: what the checks let through.
* **`edit_valid`**, `build_valid`, `toAutomaton_valid`: only valid automata are put together.
* **`valid_iff_obtainable`**: all of them are.
-/

namespace RegularLanguages

namespace Automaton

variable {A B : Automaton} {p q : State} {a b : Label}

/-! ## Checks -/

theorem checkState_eq_ok : A.checkState q = .ok p ↔ p = q ∧ q ∈ A.states := by
  unfold checkState
  split
  · rename_i h
    rw [Except.ok.injEq, eq_comm]
    exact (and_iff_left h).symm
  · rename_i h
    exact iff_of_false (by simp) fun hp => h hp.2

theorem checkLabel_eq_ok :
    A.checkLabel a = .ok b ↔ b = a ∧ ∀ c, a = .symbol c → c ∈ A.alphabet := by
  cases a with
  | epsilon =>
    rw [checkLabel, Except.ok.injEq, eq_comm]
    exact (and_iff_left fun c hc => nomatch hc).symm
  | symbol c =>
    by_cases hc : c ∈ A.alphabet
    · rw [checkLabel, if_pos hc, Except.ok.injEq, eq_comm]
      exact (and_iff_left fun d hd => Label.symbol.inj hd ▸ hc).symm
    · rw [checkLabel, if_neg hc]
      exact iff_of_false (by simp) fun hb => hc (hb.2 c rfl)

theorem mapM_checkState_eq_ok : ∀ {targets ts : List State},
    targets.mapM A.checkState = .ok ts ↔ ts = targets ∧ ∀ q ∈ targets, q ∈ A.states
  | [], ts => by
    rw [List.mapM_nil]
    exact ⟨fun h => ⟨(Except.ok.inj h).symm, by simp⟩, fun h => h.1 ▸ rfl⟩
  | q :: targets, ts => by
    rw [List.mapM_cons]
    constructor
    · intro h
      obtain ⟨p, hp, h1⟩ := bind_eq_ok h
      obtain ⟨ps, hps, h2⟩ := bind_eq_ok h1
      obtain ⟨rfl, hq⟩ := checkState_eq_ok.mp hp
      obtain ⟨rfl, htargets⟩ := mapM_checkState_eq_ok.mp hps
      refine ⟨(Except.ok.inj h2).symm, fun r hr => ?_⟩
      rcases List.mem_cons.mp hr with rfl | hr
      · exact hq
      · exact htargets r hr
    · rintro ⟨rfl, h⟩
      rw [checkState_eq_ok.mpr ⟨rfl, h q List.mem_cons_self⟩,
        mapM_checkState_eq_ok.mpr ⟨rfl, fun r hr => h r (List.mem_cons_of_mem q hr)⟩]
      rfl

/-- A computation that starts with a state goes well iff the state passes and the rest does. -/
theorem checkState_bind_eq_ok {β : Type} {f : State → Except AutomatonError β} {b : β} :
    A.checkState q >>= f = .ok b ↔ q ∈ A.states ∧ f q = .ok b := by
  constructor
  · intro h
    obtain ⟨p, hp, h1⟩ := bind_eq_ok h
    obtain ⟨rfl, hq⟩ := checkState_eq_ok.mp hp
    exact ⟨hq, h1⟩
  · rintro ⟨hq, h⟩
    rw [checkState_eq_ok.mpr ⟨rfl, hq⟩]
    exact h

theorem setInitial_eq_ok :
    A.setInitial q = .ok B ↔ q ∈ A.states ∧ B = { A with initial := some q } := by
  unfold setInitial
  rw [checkState_bind_eq_ok]
  exact and_congr_right fun _ => ⟨fun h => (Except.ok.inj h).symm, fun h => h ▸ rfl⟩

theorem addFinal_eq_ok :
    A.addFinal q = .ok B ↔ q ∈ A.states ∧ B = { A with finals := A.finals.insert q } := by
  unfold addFinal
  rw [checkState_bind_eq_ok]
  exact and_congr_right fun _ => ⟨fun h => (Except.ok.inj h).symm, fun h => h ▸ rfl⟩

/-- Transitions are added if the label, the source and all targets pass their checks. -/
theorem addTransition_eq_ok {targets : List State} :
    A.addTransition p a targets = .ok B ↔
      (∀ c, a = .symbol c → c ∈ A.alphabet) ∧ p ∈ A.states ∧ (∀ q ∈ targets, q ∈ A.states) ∧
        B = { A with edges := .ofList (targets.map fun q => ⟨p, a, q⟩) ∪ A.edges } := by
  unfold addTransition
  constructor
  · intro h
    obtain ⟨_, ha, h1⟩ := bind_eq_ok h
    obtain ⟨hsource, h2⟩ := checkState_bind_eq_ok.mp h1
    obtain ⟨_, hqs, h3⟩ := bind_eq_ok h2
    obtain ⟨rfl, hlabel⟩ := checkLabel_eq_ok.mp ha
    obtain ⟨rfl, htargets⟩ := mapM_checkState_eq_ok.mp hqs
    exact ⟨hlabel, hsource, htargets, (Except.ok.inj h3).symm⟩
  · rintro ⟨hlabel, hsource, htargets, rfl⟩
    rw [checkLabel_eq_ok.mpr ⟨rfl, hlabel⟩, checkState_eq_ok.mpr ⟨rfl, hsource⟩,
      mapM_checkState_eq_ok.mpr ⟨rfl, htargets⟩]
    rfl

/-! ## Several states at once -/

theorem foldl_addState (qs : List State) (A : Automaton) :
    qs.foldl addState A = { A with states := .ofList qs ∪ A.states } := by
  let withStates (states : OrderedSet State) : Automaton := { A with states := states }
  have hfold : qs.foldl addState (withStates A.states) =
      withStates (qs.foldl OrderedSet.insert A.states) :=
    List.foldl_hom withStates fun _ _ => rfl
  rw [OrderedSet.foldl_insert] at hfold
  exact hfold

theorem foldl_insertFinal (qs : List State) (A : Automaton) :
    qs.foldl (fun A q => { A with finals := A.finals.insert q }) A =
      { A with finals := .ofList qs ∪ A.finals } := by
  let withFinals (finals : OrderedSet State) : Automaton := { A with finals := finals }
  have hfold : qs.foldl (fun A q => { A with finals := A.finals.insert q })
      (withFinals A.finals) = withFinals (qs.foldl OrderedSet.insert A.finals) :=
    List.foldl_hom withFinals fun _ _ => rfl
  rw [OrderedSet.foldl_insert] at hfold
  exact hfold

/-- States are made final if all of them are states. -/
theorem foldlM_addFinal_eq_ok {qs : List State} :
    qs.foldlM addFinal A = .ok B ↔
      (∀ q ∈ qs, q ∈ A.states) ∧ B = { A with finals := .ofList qs ∪ A.finals } := by
  rw [← foldl_insertFinal]
  refine foldlM_eq_ok_iff (P := fun C => C.states = A.states) (fun C q D hC => ?_) ?_ rfl
  case refine_2 => exact fun C q hC => hC
  rw [← hC]
  exact addFinal_eq_ok

/-! ## Edits -/

theorem ofSymbols_eq_ok {symbols : List Char} :
    ofSymbols symbols = .ok A ↔ epsilonChar ∉ symbols ∧ A = void (.ofList symbols) := by
  unfold ofSymbols
  split
  · rename_i h
    exact iff_of_false (by simp) fun hn => hn.1 h
  · rename_i h
    rw [Except.ok.injEq, eq_comm]
    exact (and_iff_right h).symm

theorem ofSymbols_valid {symbols : List Char} (h : ofSymbols symbols = .ok A) : A.Valid := by
  obtain ⟨hε, rfl⟩ := ofSymbols_eq_ok.mp h
  exact void_valid fun hm => hε (OrderedSet.mem_ofList.mp hm)

theorem addState_valid (hA : A.Valid) (q : State) : (A.addState q).Valid where
  initial_mem p hp := OrderedSet.mem_insert.mpr (Or.inr (hA.initial_mem p hp))
  final_mem p hp := OrderedSet.mem_insert.mpr (Or.inr (hA.final_mem p hp))
  source_mem e he := OrderedSet.mem_insert.mpr (Or.inr (hA.source_mem e he))
  target_mem e he := OrderedSet.mem_insert.mpr (Or.inr (hA.target_mem e he))
  label_mem := hA.label_mem
  epsilon_not_mem := hA.epsilon_not_mem

theorem removeState_valid (hA : A.Valid) (q : State) : (A.removeState q).Valid where
  initial_mem p hp := by
    obtain ⟨hi, hne⟩ := Option.filter_eq_some_iff.mp hp
    exact OrderedSet.mem_erase.mpr ⟨hA.initial_mem p hi, of_decide_eq_true hne⟩
  final_mem p hp := by
    obtain ⟨hf, hne⟩ := OrderedSet.mem_erase.mp hp
    exact OrderedSet.mem_erase.mpr ⟨hA.final_mem p hf, hne⟩
  source_mem e he := by
    obtain ⟨he, hne⟩ := OrderedSet.mem_filter.mp he
    exact OrderedSet.mem_erase.mpr ⟨hA.source_mem e he, (of_decide_eq_true hne).1⟩
  target_mem e he := by
    obtain ⟨he, hne⟩ := OrderedSet.mem_filter.mp he
    exact OrderedSet.mem_erase.mpr ⟨hA.target_mem e he, (of_decide_eq_true hne).2⟩
  label_mem e he := hA.label_mem e (OrderedSet.mem_filter.mp he).1
  epsilon_not_mem := hA.epsilon_not_mem

/-- Removing a state that is not there changes nothing. -/
theorem removeState_of_not_mem (hA : A.Valid) (h : q ∉ A.states) : A.removeState q = A := by
  have hne {p : State} (hp : p ∈ A.states) : p ≠ q := fun hpq => h (hpq ▸ hp)
  have hstates : A.states.erase q = A.states := OrderedSet.ext_mem fun p => by
    rw [OrderedSet.mem_erase]
    exact and_iff_left_of_imp hne
  have hedges : (A.edges.filter fun e => e.source ≠ q ∧ e.target ≠ q) = A.edges :=
    OrderedSet.ext_mem fun e => by
      rw [OrderedSet.mem_filter, decide_eq_true_eq]
      exact and_iff_left_of_imp fun he => ⟨hne (hA.source_mem e he), hne (hA.target_mem e he)⟩
  have hinitial : A.initial.filter (fun p => decide (p ≠ q)) = A.initial := by
    cases hi : A.initial with
    | none => rfl
    | some p => simpa using hne (hA.initial_mem p hi)
  have hfinals : A.finals.erase q = A.finals := OrderedSet.ext_mem fun p => by
    rw [OrderedSet.mem_erase]
    exact and_iff_left_of_imp fun hp => hne (hA.final_mem p hp)
  unfold removeState
  rw [hstates, hedges, hinitial, hfinals]

theorem setInitial_valid (hA : A.Valid) (h : A.setInitial q = .ok B) : B.Valid := by
  obtain ⟨hq, rfl⟩ := setInitial_eq_ok.mp h
  exact { hA with initial_mem := fun p hp => Option.some.inj hp ▸ hq }

theorem addFinal_valid (hA : A.Valid) (h : A.addFinal q = .ok B) : B.Valid := by
  obtain ⟨hq, rfl⟩ := addFinal_eq_ok.mp h
  refine { hA with final_mem := fun p hp => ?_ }
  rcases OrderedSet.mem_insert.mp hp with rfl | hp
  · exact hq
  · exact hA.final_mem p hp

theorem removeFinal_valid (hA : A.Valid) (q : State) : (A.removeFinal q).Valid :=
  { hA with final_mem := fun p hp => hA.final_mem p (OrderedSet.mem_erase.mp hp).1 }

theorem extendAlphabet_valid (hA : A.Valid) {symbols : List Char}
    (h : A.extendAlphabet symbols = .ok B) : B.Valid := by
  unfold extendAlphabet at h
  split at h
  · cases h
  · rename_i hε
    obtain rfl := Except.ok.inj h
    refine { hA with
      label_mem := fun e he c hc => OrderedSet.mem_union.mpr (Or.inr (hA.label_mem e he c hc))
      epsilon_not_mem := fun hm => ?_ }
    rcases OrderedSet.mem_union.mp hm with hm | hm
    · exact hε (OrderedSet.mem_ofList.mp hm)
    · exact hA.epsilon_not_mem hm

theorem addTransition_valid (hA : A.Valid) {targets : List State}
    (h : A.addTransition p a targets = .ok B) : B.Valid := by
  obtain ⟨hlabel, hsource, htargets, rfl⟩ := addTransition_eq_ok.mp h
  have hnew (e : Edge) (he : e ∈ OrderedSet.ofList (targets.map fun q => (⟨p, a, q⟩ : Edge))) :
      e.source ∈ A.states ∧ e.target ∈ A.states ∧ ∀ c, e.label = .symbol c → c ∈ A.alphabet := by
    obtain ⟨q, hq, rfl⟩ := List.mem_map.mp (OrderedSet.mem_ofList.mp he)
    exact ⟨hsource, htargets q hq, hlabel⟩
  exact { hA with
    source_mem := fun e he =>
      (OrderedSet.mem_union.mp he).elim (fun he => (hnew e he).1) (hA.source_mem e)
    target_mem := fun e he =>
      (OrderedSet.mem_union.mp he).elim (fun he => (hnew e he).2.1) (hA.target_mem e)
    label_mem := fun e he =>
      (OrderedSet.mem_union.mp he).elim (fun he => (hnew e he).2.2) (hA.label_mem e) }

theorem addEdge_valid (hA : A.Valid) {e : Edge} (h : A.addEdge e = .ok B) : B.Valid :=
  addTransition_valid hA h

theorem removeTransition_valid (hA : A.Valid) (p : State) (a : Label) :
    (A.removeTransition p a).Valid :=
  { hA with
    source_mem := fun e he => hA.source_mem e (OrderedSet.mem_filter.mp he).1
    target_mem := fun e he => hA.target_mem e (OrderedSet.mem_filter.mp he).1
    label_mem := fun e he => hA.label_mem e (OrderedSet.mem_filter.mp he).1 }

/-- **Edits lead from valid automata to valid automata.** -/
theorem edit_valid (hA : A.Valid) : ∀ {e : Edit} {report : Report},
    A.edit e = .ok (B, report) → B.Valid
  | .addState q, _, h => (Prod.mk.inj (Except.ok.inj h)).1 ▸ addState_valid hA q
  | .removeState q, _, h => (Prod.mk.inj (Except.ok.inj h)).1 ▸ removeState_valid hA q
  | .setInitial _, _, h => by
    obtain ⟨C, hC, h⟩ := map_eq_ok h
    exact (Prod.mk.inj h).1 ▸ setInitial_valid hA hC
  | .clearInitial, _, h => by
    obtain ⟨rfl, -⟩ := Prod.mk.inj (Except.ok.inj h)
    exact { hA with initial_mem := fun _ hp => nomatch hp }
  | .addFinal _, _, h => by
    obtain ⟨C, hC, h⟩ := map_eq_ok h
    exact (Prod.mk.inj h).1 ▸ addFinal_valid hA hC
  | .removeFinal q, _, h => (Prod.mk.inj (Except.ok.inj h)).1 ▸ removeFinal_valid hA q
  | .extendAlphabet _, _, h => by
    obtain ⟨C, hC, h⟩ := map_eq_ok h
    exact (Prod.mk.inj h).1 ▸ extendAlphabet_valid hA hC
  | .addTransition _ _ _, _, h => by
    obtain ⟨C, hC, h⟩ := map_eq_ok h
    exact (Prod.mk.inj h).1 ▸ addTransition_valid hA hC
  | .addEdge _, _, h => by
    obtain ⟨C, hC, h⟩ := map_eq_ok h
    exact (Prod.mk.inj h).1 ▸ addEdge_valid hA hC
  | .removeTransition p a, _, h =>
    (Prod.mk.inj (Except.ok.inj h)).1 ▸ removeTransition_valid hA p a

/-- An edit that is carried out or refused leaves a valid automaton. -/
theorem attempt_valid (hA : A.Valid) (e : Edit) : (A.attempt e).2.Valid := by
  unfold attempt
  cases h : A.edit e with
  | ok result => exact edit_valid hA h
  | error error => exact hA

/-- An edit that is refused leaves the automaton as it was. -/
theorem attempt_of_error {e : Edit} {error : AutomatonError} (h : (A.attempt e).1 = .error error) :
    (A.attempt e).2 = A := by
  unfold attempt at h ⊢
  cases hedit : A.edit e with
  | ok result => exact absurd h (by simp [hedit])
  | error _ => rfl

/-! ## Blueprints and records -/

theorem foldl_addState_valid : ∀ (qs : List State) {A : Automaton}, A.Valid →
    (qs.foldl addState A).Valid
  | [], _, hA => hA
  | q :: qs, _, hA => foldl_addState_valid qs (addState_valid hA q)

/-- Only valid automata are assembled from a blueprint. -/
theorem build_valid {b : Blueprint} (h : b.build = .ok A) : A.Valid := by
  obtain ⟨A₁, h₁, h⟩ := bind_eq_ok h
  obtain ⟨A₂, h₂, h⟩ := bind_eq_ok h
  obtain ⟨A₃, h₃, h⟩ := bind_eq_ok h
  have hA₁ : (b.mentioned.foldl addState A₁).Valid :=
    foldl_addState_valid _ (ofSymbols_valid h₁)
  have hA₂ : A₂.Valid := foldlM_keeps (fun _ _ _ hA => addEdge_valid hA) h₂ hA₁
  have hA₃ : A₃.Valid := foldlM_keeps (fun _ _ _ => setInitial_valid) h₃ hA₂
  exact foldlM_keeps (fun _ _ _ => addFinal_valid) h hA₃

theorem addInitial_valid (hA : A.Valid) : ∀ {initial : List String},
    Record.addInitial A initial = .ok B → B.Valid
  | [], h => Except.ok.inj h ▸ hA
  | [_], h => setInitial_valid hA h
  | _ :: _ :: _, h => by
    obtain ⟨_, -, h⟩ := bind_eq_ok h
    obtain ⟨C, hC, h⟩ := bind_eq_ok h
    exact setInitial_valid (addTransition_valid (addState_valid hA _) hC) h

/-- Only valid automata are read from a record. -/
theorem toAutomaton_valid {R : Record} (h : R.toAutomaton = .ok A) : A.Valid := by
  obtain ⟨symbols, -, h⟩ := bind_eq_ok h
  obtain ⟨A₁, h₁, h⟩ := bind_eq_ok h
  obtain ⟨A₂, h₂, h⟩ := bind_eq_ok h
  obtain ⟨A₃, h₃, h⟩ := bind_eq_ok h
  have hA₁ : (R.states.foldl (fun A q => A.addState ⟨q⟩) A₁).Valid := by
    rw [← List.foldl_map]
    exact foldl_addState_valid _ (ofSymbols_valid h₁)
  have hentries (B : Automaton) (source : String × List (String × List String)) (C : Automaton)
      (hB : B.Valid) (h : Record.addEntries source.1 B source.2 = .ok C) : C.Valid := by
    refine foldlM_keeps (fun D entry E hD h => ?_) h hB
    obtain ⟨c, -, h⟩ := bind_eq_ok h
    exact addTransition_valid hD h
  have hA₂ : A₂.Valid := foldlM_keeps hentries h₂ hA₁
  exact foldlM_keeps (fun _ _ _ => addFinal_valid) h (addInitial_valid hA₂ h₃)

/-! ## Every valid automaton -/

/-- The automaton has been put together by edits of an automaton without states, from a blueprint
or from a record. -/
inductive Obtainable : Automaton → Prop
  | ofSymbols {symbols : List Char} {A : Automaton} : ofSymbols symbols = .ok A → Obtainable A
  | edit {A B : Automaton} {e : Edit} {report : Report} :
      Obtainable A → A.edit e = .ok (B, report) → Obtainable B
  | assemble {declarations : List Blueprint.Declaration} {A : Automaton} :
      Blueprint.assemble declarations = .ok A → Obtainable A
  | record {R : Record} {A : Automaton} : R.toAutomaton = .ok A → Obtainable A

theorem Obtainable.valid (h : A.Obtainable) : A.Valid := by
  induction h with
  | ofSymbols h => exact ofSymbols_valid h
  | edit _ h ih => exact edit_valid ih h
  | assemble h => exact build_valid h
  | record h => exact toAutomaton_valid h

theorem obtainable_states {alphabet : OrderedSet Char} (hε : epsilonChar ∉ alphabet) :
    ∀ qs : List State, (⟨.ofList qs, alphabet, ∅, none, ∅⟩ : Automaton).Obtainable
  | [] => by
    refine .ofSymbols (ofSymbols_eq_ok.mpr ⟨hε, ?_⟩)
    rw [OrderedSet.ofList_toList]
    rfl
  | q :: qs => (obtainable_states hε qs).edit (e := .addState q) rfl

theorem obtainable_edges {states : OrderedSet State} {alphabet : OrderedSet Char}
    (hε : epsilonChar ∉ alphabet) : ∀ es : List Edge,
      (∀ e ∈ es, e.source ∈ states ∧ e.target ∈ states ∧
        ∀ c, e.label = .symbol c → c ∈ alphabet) →
      (⟨states, alphabet, .ofList es, none, ∅⟩ : Automaton).Obtainable
  | [], _ => by
    have h := obtainable_states hε states.toList
    rwa [OrderedSet.ofList_toList] at h
  | e :: es, hes => by
    have ih := obtainable_edges hε es fun d hd => hes d (List.mem_cons_of_mem e hd)
    obtain ⟨hs, ht, hl⟩ := hes e List.mem_cons_self
    have hadd : (⟨states, alphabet, .ofList es, none, ∅⟩ : Automaton).addEdge e =
        .ok ⟨states, alphabet, .ofList (e :: es), none, ∅⟩ := by
      refine addTransition_eq_ok.mpr ⟨hl, hs, fun q hq => List.mem_singleton.mp hq ▸ ht, ?_⟩
      have hinsert : OrderedSet.ofList (e :: es) = .ofList [e] ∪ .ofList es :=
        OrderedSet.ext_mem fun d => by simp
      rw [hinsert]
      rfl
    exact ih.edit (e := .addEdge e) (congrArg (Except.map (·, Report.nothing)) hadd)

theorem obtainable_finals
    (h : (⟨A.states, A.alphabet, A.edges, A.initial, ∅⟩ : Automaton).Obtainable) :
    ∀ qs : List State, (∀ q ∈ qs, q ∈ A.states) →
      (⟨A.states, A.alphabet, A.edges, A.initial, .ofList qs⟩ : Automaton).Obtainable
  | [], _ => h
  | q :: qs, hqs => by
    have ih := obtainable_finals h qs fun p hp => hqs p (List.mem_cons_of_mem q hp)
    have hadd : (⟨A.states, A.alphabet, A.edges, A.initial, .ofList qs⟩ : Automaton).addFinal q =
        .ok ⟨A.states, A.alphabet, A.edges, A.initial, .ofList (q :: qs)⟩ :=
      addFinal_eq_ok.mpr ⟨hqs q List.mem_cons_self, rfl⟩
    exact ih.edit (e := .addFinal q) (congrArg (Except.map (·, Report.nothing)) hadd)

/-- **The valid automata are those that can be put together.** -/
theorem valid_iff_obtainable : A.Valid ↔ A.Obtainable := by
  refine ⟨fun hA => ?_, Obtainable.valid⟩
  have hedges := obtainable_edges hA.epsilon_not_mem A.edges.toList fun e he =>
    ⟨hA.source_mem e he, hA.target_mem e he, hA.label_mem e he⟩
  rw [OrderedSet.ofList_toList] at hedges
  have hinitial : (⟨A.states, A.alphabet, A.edges, A.initial, ∅⟩ : Automaton).Obtainable := by
    cases hi : A.initial with
    | none => exact hedges
    | some i =>
      have hset : (⟨A.states, A.alphabet, A.edges, none, ∅⟩ : Automaton).setInitial i =
          .ok ⟨A.states, A.alphabet, A.edges, some i, ∅⟩ :=
        setInitial_eq_ok.mpr ⟨hA.initial_mem i hi, rfl⟩
      exact hedges.edit (e := .setInitial i) (congrArg (Except.map (·, Report.nothing)) hset)
  have hfinals := obtainable_finals hinitial A.finals.toList hA.final_mem
  rwa [OrderedSet.ofList_toList] at hfinals

end Automaton

end RegularLanguages
