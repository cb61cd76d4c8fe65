import Mathlib.Data.List.Sort
import RegularLanguages.Proofs.Odometer.Rank
import RegularLanguages.Proofs.Word

/-!
# Odometers give out every word once

Going on adds one to the rank of the digits, so the word given out behind `k` others is the one of
rank `k`. As the rank follows the shortlex order, no two words share a rank, and none is left out.

The successor of a word that is found without digits, and the words up to a length that are listed
length by length, are what an odometer gives out.

Results:
* `item?_start_eq_some_iff`, **`enumerates_item?`**: what an odometer gives out.
* `following_word`, **`getElem?_enumerate`**: successors without digits.
* **`takesWhile_upTo`**: taking the words up to a length comes to an end.
* **`ofSymbols_enumerates_and_upTo`**: all of this for the odometer over any symbols.
-/

namespace RegularLanguages.Odometer

open List (Shortlex)

variable {j k : Nat}

/-! ## What is given out -/

variable {S : OrderedSet Char} {w : Word}

/-- The word with the given digits. -/
def word (S : OrderedSet Char) (ds : List (Fin S.toList.length)) : Word := ds.map S.toList.get

@[simp] theorem length_word (ds : List (Fin S.toList.length)) : (word S ds).length = ds.length :=
  List.length_map _

theorem word_over (ds : List (Fin S.toList.length)) : (word S ds).Over S := by
  intro c hc
  obtain ⟨d, _, rfl⟩ := List.mem_map.mp hc
  exact List.get_mem S.toList d

theorem exists_word_eq : ∀ {w : Word}, w.Over S → ∃ ds, word S ds = w
  | [], _ => ⟨[], rfl⟩
  | c :: w, h => by
    obtain ⟨hc, hw⟩ := Word.over_cons.mp h
    obtain ⟨d, hd⟩ := List.mem_iff_get.mp hc
    obtain ⟨ds, hds⟩ := exists_word_eq hw
    exact ⟨d :: ds, congrArg₂ List.cons hd hds⟩

theorem get_lt_get {d e : Fin S.toList.length} (h : d < e) : S.toList.get d < S.toList.get e :=
  compare_lt_iff_lt.mp (List.pairwise_iff_get.mp S.sorted d e h)

theorem lex_word {ds es : List (Fin S.toList.length)} (h : List.Lex (· < ·) ds es) :
    List.Lex (· < ·) (word S ds) (word S es) := by
  induction h with
  | nil => exact .nil
  | rel hde => exact .rel (get_lt_get hde)
  | cons _ ih => exact .cons ih

theorem shortlex_word {ds es : List (Fin S.toList.length)} (h : Shortlex (· < ·) ds es) :
    Shortlex (· < ·) (word S ds) (word S es) := by
  rcases List.shortlex_def.mp h with hlength | ⟨hlength, hlex⟩
  · exact .of_length_lt (by simpa using hlength)
  · exact .of_lex (by simpa using hlength) (lex_word hlex)

theorem word_injective {ds es : List (Fin S.toList.length)} (h : word S ds = word S es) :
    ds = es :=
  (List.map_injective_iff.mpr (List.nodup_iff_injective_get.mp S.nodup_toList)) h

/-- The odometer over a set, in front of the word with the given digits. -/
def before (S : OrderedSet Char) (ds : Option (List (Fin S.toList.length))) : Odometer :=
  ⟨S.toList, ds⟩

theorem next_before (ds : List (Fin S.toList.length)) :
    (before S (some ds)).next = some (word S ds, before S (following? ds)) := rfl

theorem item?_before_none (k : Nat) : (before S none).item? k = none := by
  cases k <;> rfl

theorem item?_before_succ (ds : List (Fin S.toList.length)) (k : Nat) :
    (before S (some ds)).item? (k + 1) = (before S (following? ds)).item? k := rfl

theorem exists_item?_before (h : 0 < S.toList.length) :
    ∀ (k : Nat) (ds : List (Fin S.toList.length)),
      ∃ es, (before S (some ds)).item? k = some (word S es) ∧ rank es = rank ds + k
  | 0, ds => ⟨ds, rfl, rfl⟩
  | k + 1, ds => by
    obtain ⟨ds', hds', hrank⟩ := rank_following? h ds
    obtain ⟨es, hes, hrank'⟩ := exists_item?_before h k ds'
    refine ⟨es, ?_, by omega⟩
    rw [item?_before_succ, hds', hes]

/-- **The word given out behind `k` others** is the one of which the digits have the rank `k`. -/
theorem item?_start_eq_some_iff (h : 0 < S.toList.length) :
    (before S (some [])).item? k = some w ↔ ∃ ds, word S ds = w ∧ rank ds = k := by
  obtain ⟨es, hes, hrank⟩ := exists_item?_before h k []
  have hrank : rank es = k := by rw [hrank]; exact Nat.zero_add k
  rw [hes, Option.some_inj]
  constructor
  · exact fun hw => ⟨es, hw, hrank⟩
  · rintro ⟨ds, rfl, hds⟩
    rw [rank_injective (hrank.trans hds.symm)]

/-- `items` are the words over `S`, each of them once and in shortlex order. -/
structure Enumerates (items : Nat → Option Word) (S : OrderedSet Char) : Prop where
  first : items 0 = some []
  words_over : ∀ k w, items k = some w → w.Over S
  increasing : ∀ j k v w, j < k → items j = some v → items k = some w → Shortlex (· < ·) v w
  occurs_once : ∀ w : Word, w.Over S → ∃! k, items k = some w
  goes_on : S.isEmpty = false → ∀ k, ∃ w, items k = some w
  ends : S.isEmpty = true → ∀ k, items (k + 1) = none

theorem length_pos_iff : 0 < S.toList.length ↔ S.isEmpty = false := by
  rw [List.length_pos_iff, OrderedSet.isEmpty, List.isEmpty_eq_false_iff]

theorem enumerates_of_pos (h : 0 < S.toList.length) :
    Enumerates (before S (some [])).item? S where
  first := rfl
  words_over k w hw := by
    obtain ⟨ds, rfl, -⟩ := (item?_start_eq_some_iff h).mp hw
    exact word_over ds
  increasing j k v w hjk hv hw := by
    obtain ⟨ds, rfl, rfl⟩ := (item?_start_eq_some_iff h).mp hv
    obtain ⟨es, rfl, rfl⟩ := (item?_start_eq_some_iff h).mp hw
    exact shortlex_word (shortlex_of_rank_lt hjk)
  occurs_once w hw := by
    obtain ⟨ds, rfl⟩ := exists_word_eq hw
    refine ⟨rank ds, (item?_start_eq_some_iff h).mpr ⟨ds, rfl, rfl⟩, fun k hk => ?_⟩
    obtain ⟨es, hes, rfl⟩ := (item?_start_eq_some_iff h).mp hk
    rw [word_injective hes]
  goes_on _ k := by
    obtain ⟨es, hes, -⟩ := exists_item?_before h k []
    exact ⟨_, hes⟩
  ends hempty := absurd hempty (by rw [length_pos_iff.mp h]; simp)

theorem enumerates_of_isEmpty (h : S.isEmpty = true) :
    Enumerates (before S (some [])).item? S := by
  have hends (k : Nat) : (before S (some [])).item? (k + 1) = none := by
    have hlength : ¬ 0 < S.toList.length := by rw [length_pos_iff, h]; simp
    rw [item?_before_succ, following?, dif_neg hlength, item?_before_none]
  have hitem {k : Nat} {w : Word} (hw : (before S (some [])).item? k = some w) :
      k = 0 ∧ w = [] := by
    cases k with
    | zero => exact ⟨rfl, (Option.some.inj hw).symm⟩
    | succ k => exact nomatch (hends k).symm.trans hw
  constructor
  case first => rfl
  case words_over =>
    intro k w hw
    obtain ⟨-, rfl⟩ := hitem hw
    exact fun c hc => absurd hc List.not_mem_nil
  case increasing =>
    intro j k v w hjk _ hw
    obtain ⟨rfl, -⟩ := hitem hw
    exact absurd hjk (Nat.not_lt_zero j)
  case occurs_once =>
    intro w hw
    have hnil : w = [] :=
      List.eq_nil_iff_forall_not_mem.mpr fun c hc => OrderedSet.isEmpty_iff.mp h c (hw c hc)
    exact ⟨0, hnil ▸ rfl, fun k hk => (hitem hk).1⟩
  case goes_on => exact fun hfalse => absurd h (by rw [hfalse]; simp)
  case ends => exact fun _ => hends

/-- **An odometer gives out the words over its symbols** in shortlex order, each of them once. -/
theorem enumerates_item? (S : OrderedSet Char) : Enumerates (before S (some [])).item? S := by
  cases h : S.isEmpty with
  | true => exact enumerates_of_isEmpty h
  | false => exact enumerates_of_pos (length_pos_iff.mpr h)

theorem Enumerates.exists_of_le {items : Nat → Option Word} (h : Enumerates items S)
    (hjk : j ≤ k) (hk : items k = some w) : ∃ v, items j = some v := by
  cases hS : S.isEmpty with
  | false => exact h.goes_on hS j
  | true =>
    cases k with
    | zero => exact ⟨w, Nat.eq_zero_of_le_zero hjk ▸ hk⟩
    | succ k => exact nomatch (h.ends hS k).symm.trans hk

theorem Enumerates.length_le {items : Nat → Option Word} {v : Word} (h : Enumerates items S)
    (hjk : j ≤ k) (hv : items j = some v) (hw : items k = some w) : v.length ≤ w.length := by
  rcases Nat.eq_or_lt_of_le hjk with rfl | hlt
  · cases hv.symm.trans hw
    exact Nat.le_refl _
  · rcases List.shortlex_def.mp (h.increasing j k v w hlt hv hw) with hlength | hlength
    · exact hlength.le
    · exact hlength.1.le

/-! ## Successors without digits -/

theorem symbolAfter_get : ∀ {l : List Char} (_ : l.Nodup) (d : Fin l.length),
    Word.symbolAfter (l.get d) l = l[d.val + 1]?
  | _ :: _, _, ⟨0, _⟩ => (if_pos rfl).trans List.head?_eq_getElem?
  | x :: l, hn, ⟨d + 1, hd⟩ => by
    obtain ⟨hx, hn⟩ := List.nodup_cons.mp hn
    have hne : x ≠ l.get ⟨d, Nat.lt_of_succ_lt_succ hd⟩ := fun h => hx (h ▸ List.get_mem l _)
    rw [List.get_cons_succ, Word.symbolAfter, if_neg hne, symbolAfter_get hn]
    rfl

theorem word_replicate (d : Fin S.toList.length) (length : Nat) :
    word S (List.replicate length d) = List.replicate length (S.toList.get d) := List.map_replicate

theorem head?_eq_get (h : 0 < S.toList.length) :
    S.toList.head? = some (S.toList.get ⟨0, h⟩) := by
  rw [List.head?_eq_getElem?, List.getElem?_eq_getElem h]
  rfl

/-- The next word of the same length is the one with the digits turned. -/
theorem increment_word : ∀ ds : List (Fin S.toList.length),
    Word.increment S.toList (word S ds) =
      if (turn ds).2 then none else some (word S (turn ds).1)
  | [] => rfl
  | d :: ds => by
    show Word.increment S.toList (S.toList.get d :: word S ds) = _
    rw [Word.increment, increment_word ds, turn_cons]
    by_cases hback : (turn ds).2 = true
    · simp only [if_pos hback, symbolAfter_get S.nodup_toList, head?_eq_get d.pos]
      by_cases hd : d.val + 1 < S.toList.length
      · simp only [dif_pos hd, List.getElem?_eq_getElem hd, turn_of_back d.pos hback]
        show some (_ :: (word S ds).map _) = some (_ :: word S (List.replicate ds.length _))
        rw [word_replicate, List.map_const', length_word]
        rfl
      · simp only [dif_neg hd, List.getElem?_eq_none (Nat.le_of_not_lt hd)]
        rfl
    · simp only [if_neg hback]
      rfl

/-- **The successor of a word** is the word with the digits behind. -/
theorem following_word (ds : List (Fin S.toList.length)) :
    Word.following S (word S ds) = (following? ds).map (word S) := by
  rw [Word.following, increment_word, following?]
  by_cases h : 0 < S.toList.length
  · rw [dif_pos h, head?_eq_get h]
    by_cases hback : (turn ds).2 = true
    · simp only [if_pos hback, Option.map_some, word_replicate, length_word]
    · simp only [if_neg hback, Option.map_some]
  · have hhead : S.toList.head? = none :=
      List.head?_eq_none_iff.mpr (List.eq_nil_of_length_eq_zero (Nat.eq_zero_of_not_pos h))
    have hds : ds = [] := List.eq_nil_iff_forall_not_mem.mpr fun d _ => h d.pos
    rw [dif_neg h, hhead, hds]
    rfl

theorem advance_word : ∀ (k : Nat) (ds : List (Fin S.toList.length)),
    Word.advance S k (word S ds) = (before S (some ds)).item? k
  | 0, _ => rfl
  | k + 1, ds => by
    rw [Word.advance, following_word, item?_before_succ]
    cases following? ds with
    | none => exact (item?_before_none k).symm
    | some es => exact advance_word k es

theorem getElem?_enumerateFrom : ∀ (count i : Nat) (w : Word),
    (Word.enumerateFrom S count (some w))[i]? = if i < count then Word.advance S i w else none
  | 0, i, w => by simp [Word.enumerateFrom]
  | count + 1, 0, w => by simp [Word.enumerateFrom, Word.advance]
  | count + 1, i + 1, w => by
    rw [Word.enumerateFrom, List.getElem?_cons_succ, Word.advance]
    cases Word.following S w with
    | none => simp [Word.enumerateFrom_none]
    | some v => simp only [getElem?_enumerateFrom count i v, Nat.add_lt_add_iff_right]

/-- **Words without the first ones** are what an odometer gives out behind these. -/
theorem getElem?_enumerate (skip count i : Nat) :
    (Word.enumerate S skip count)[i]? =
      if i < count then (before S (some [])).item? (skip + i) else none := by
  rw [Word.enumerate_eq_drop, List.getElem?_drop, Word.enumerate]
  show (Word.enumerateFrom S (skip + count) (some (word S [])))[skip + i]? = _
  rw [getElem?_enumerateFrom, advance_word]
  simp only [Nat.add_lt_add_iff_left]

/-! ## Taking the words up to a length -/

/-- The words that are taken from an odometer as long as they have the property `p`. Each rule is
one turn of a loop that nothing bounds. -/
inductive TakesWhile (p : Word → Bool) : Odometer → List Word → Prop
  | ended {o : Odometer} (h : o.next = none) : TakesWhile p o []
  | stopped {o o' : Odometer} {w : Word} (h : o.next = some (w, o')) (hp : p w = false) :
    TakesWhile p o []
  | taken {o o' : Odometer} {w : Word} {ws : List Word} (h : o.next = some (w, o'))
    (hp : p w = true) (hws : TakesWhile p o' ws) : TakesWhile p o (w :: ws)

variable {p : Word → Bool} {o : Odometer} {vs ws : List Word}

theorem TakesWhile.unique (hv : TakesWhile p o vs) (hw : TakesWhile p o ws) : vs = ws := by
  induction hv generalizing ws with
  | ended h =>
    cases hw with
    | ended => rfl
    | stopped => rfl
    | taken h' _ _ => exact nomatch h.symm.trans h'
  | stopped h hp =>
    cases hw with
    | ended => rfl
    | stopped => rfl
    | taken h' hp' _ =>
      cases h.symm.trans h'
      exact absurd hp' (by rw [hp]; simp)
  | taken h hp _ ih =>
    cases hw with
    | ended h' => exact nomatch h'.symm.trans h
    | stopped h' hp' =>
      cases h.symm.trans h'
      exact absurd hp (by rw [hp']; simp)
    | taken h' _ hw =>
      cases h.symm.trans h'
      exact congrArg _ (ih hw)

/-- What is taken are the first words, up to one without the property. -/
theorem TakesWhile.spec (h : TakesWhile p o ws) :
    (∀ k < ws.length, ws[k]? = o.item? k) ∧ (∀ w ∈ ws, p w = true) ∧
      ∀ w, o.item? ws.length = some w → p w = false := by
  induction h with
  | ended h => simp [item?, h]
  | stopped h hp => simp [item?, h, hp]
  | @taken o o' w ws h hp _ ih =>
    obtain ⟨hitems, hall, hnext⟩ := ih
    refine ⟨?_, List.forall_mem_cons.mpr ⟨hp, hall⟩, ?_⟩
    · rintro (_ | k) hk
      · simp [item?, h]
      · simpa [item?, h] using hitems k (Nat.lt_of_succ_lt_succ hk)
    · simpa [item?, h] using hnext

/-- Taking words up to a length ends, since every word given out counts. -/
theorem exists_takesWhile (length : Nat) : ∀ (fuel : Nat) (ds : List (Fin S.toList.length)),
    shorter S.toList.length (length + 1) ≤ rank ds + fuel →
      ∃ ws, TakesWhile (·.length ≤ length) (before S (some ds)) ws
  | 0, ds, h => by
    have hlonger : ¬ ds.length ≤ length := fun hle =>
      absurd (rank_lt ds) (Nat.not_lt.mpr ((shorter_mono (Nat.succ_le_succ hle)).trans h))
    exact ⟨[], .stopped (next_before ds) (by simpa using hlonger)⟩
  | fuel + 1, ds, h => by
    by_cases hle : ds.length ≤ length
    · have hp : decide ((word S ds).length ≤ length) = true := by simpa using hle
      by_cases hpos : 0 < S.toList.length
      · obtain ⟨es, hes, hrank⟩ := rank_following? hpos ds
        obtain ⟨ws, hws⟩ := exists_takesWhile length fuel es (by omega)
        exact ⟨_, .taken (next_before ds) hp (hes ▸ hws)⟩
      · have hend : following? ds = none := dif_neg hpos
        exact ⟨_, .taken (next_before ds) hp (.ended (by rw [hend]; rfl))⟩
    · exact ⟨[], .stopped (next_before ds) (by simpa using hle)⟩

/-- **Taking the words up to a length** comes to an end and gives those that are listed length by
length. -/
theorem takesWhile_upTo (S : OrderedSet Char) (length : Nat) :
    TakesWhile (·.length ≤ length) (before S (some [])) (Word.upTo S length) := by
  have henum := enumerates_item? S
  obtain ⟨ws, hws⟩ := exists_takesWhile (S := S) length _ [] (Nat.le_add_left _ _)
  obtain ⟨hitems, hall, hnext⟩ := hws.spec
  have hitem (k : Nat) (hk : k < ws.length) : (before S (some [])).item? k = some ws[k] := by
    rw [← hitems k hk, List.getElem?_eq_getElem hk]
  have hsorted : ws.Pairwise (Shortlex (· < ·)) :=
    List.pairwise_iff_getElem.mpr fun j k hj hk hjk =>
      henum.increasing j k _ _ hjk (hitem j hj) (hitem k hk)
  have hmem (w : Word) : w ∈ ws ↔ w ∈ Word.upTo S length := by
    rw [Word.mem_upTo]
    constructor
    · intro hw
      obtain ⟨k, hk, rfl⟩ := List.mem_iff_getElem.mp hw
      exact ⟨by simpa using hall _ hw, henum.words_over k _ (hitem k hk)⟩
    · intro ⟨hlength, hover⟩
      obtain ⟨k, hk, -⟩ := henum.occurs_once w hover
      by_cases hlt : k < ws.length
      · rw [hitem k hlt, Option.some_inj] at hk
        exact hk ▸ List.getElem_mem hlt
      · -- the word at which taking stopped is longer, and so are the words behind it
        have hle := Nat.le_of_not_lt hlt
        obtain ⟨v, hv⟩ := henum.exists_of_le hle hk
        have hlonger : ¬ v.length ≤ length := by simpa using hnext v hv
        exact absurd ((henum.length_le hle hv hk).trans hlength) hlonger
  rw [← hsorted.eq_of_mem_iff (Word.sorted_upTo S length) hmem]
  exact hws

/-! ## The odometer over any symbols -/

theorem ofSymbols_eq (symbols : List Char) :
    ofSymbols symbols = before (.ofList symbols) (some []) := rfl

/-- **The words over any symbols**, as an odometer gives them out: the empty word first, then in
strictly increasing shortlex order every word over the symbols at exactly one place, without end
unless there are no symbols. The words that are listed without the first ones are those the odometer
gives out behind them. Taking the words up to a length always ends, and gives the words that are
listed: those over the symbols that are not longer, each of them once. -/
theorem ofSymbols_enumerates_and_upTo (symbols : List Char) :
    Enumerates (ofSymbols symbols).item? (.ofList symbols) ∧
      (∀ skip count i, (Word.enumerate (.ofList symbols) skip count)[i]? =
        if i < count then (ofSymbols symbols).item? (skip + i) else none) ∧
      ∀ length,
        (∀ ws, TakesWhile (·.length ≤ length) (ofSymbols symbols) ws ↔
          ws = Word.upTo (.ofList symbols) length) ∧
        (Word.upTo (.ofList symbols) length).Nodup ∧
        ∀ w, w ∈ Word.upTo (.ofList symbols) length ↔
          w.length ≤ length ∧ w.Over (.ofList symbols) := by
  rw [ofSymbols_eq]
  refine ⟨enumerates_item? _, getElem?_enumerate, fun length => ⟨fun ws => ?_, ?_, ?_⟩⟩
  · have htakes := takesWhile_upTo (.ofList symbols) length
    exact ⟨fun h => h.unique htakes, fun h => h ▸ htakes⟩
  · exact (Word.sorted_upTo _ length).nodup
  · exact fun w => Word.mem_upTo

end RegularLanguages.Odometer
