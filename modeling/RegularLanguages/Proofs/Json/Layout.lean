import Mathlib.Data.List.Forall2
import RegularLanguages.Json.Layout
import RegularLanguages.Json.Reader
import RegularLanguages.Proofs.Json.Quoted

/-!
# Reading lists and objects undoes writing them

A reader takes a text for a value if it returns the value and what is left, whatever comes in front
as space and whatever comes behind (`Takes`). What is written for strings, lists and objects is
taken for what it was written for, provided it is for the parts. Of an object it need only be known
what each entry does to what has been read so far (`Follows`).

Results:
* `takes_string`: strings.
* **`takes_block`**, `takes_strings`: lists, by induction on the elements.
* **`takes_object`**: objects, by induction on the entries.
-/

namespace RegularLanguages.Json

variable {α σ : Type} {cs rest text : List Char} {depth : Nat} {key : String}

/-! ## Space -/

/-- The text starts with something other than space or the end of a list. -/
def Starts (text : List Char) : Prop := ∃ c cs, text = c :: cs ∧ isSpace c = false ∧ c ≠ ']'

theorem skipSpace_cons {c : Char} (h : isSpace c = false) : skipSpace (c :: cs) = c :: cs := by
  rw [skipSpace, List.dropWhile_cons, h]
  rfl

theorem Starts.skipSpace_append (h : Starts text) (rest : List Char) :
    skipSpace (text ++ rest) = text ++ rest := by
  obtain ⟨c, cs, rfl, hc, -⟩ := h
  exact skipSpace_cons hc

theorem skipSpace_lineBreak (depth : Nat) (cs : List Char) :
    skipSpace (lineBreak depth ++ cs) = skipSpace cs := by
  have hspaces : ∀ n, skipSpace (List.replicate n ' ' ++ cs) = skipSpace cs := by
    intro n
    induction n with
    | zero => rfl
    | succ n ih => exact ih
  exact hspaces (2 * depth)

theorem Starts.skipSpace_line (h : Starts text) :
    skipSpace (lineBreak depth ++ (text ++ rest)) = text ++ rest :=
  (skipSpace_lineBreak depth _).trans (h.skipSpace_append rest)

/-! ## Readers -/

/-- The reader takes the text for `x`, whatever comes behind it. -/
structure Takes (read : List Char → Except Fault (α × List Char)) (text : List Char) (x : α) :
    Prop where
  starts : Starts text
  reads : ∀ cs rest, skipSpace cs = text ++ rest → read cs = .ok (x, rest)

theorem Takes.reads_append {read : List Char → Except Fault (α × List Char)} {x : α}
    (h : Takes read text x) (rest : List Char) : read (text ++ rest) = .ok (x, rest) :=
  h.reads _ rest (h.starts.skipSpace_append rest)

/-- The value of an entry of an object stands behind a space. -/
theorem Takes.reads_value {read : List Char → Except Fault (α × List Char)} {x : α}
    (h : Takes read text x) (rest : List Char) : read (' ' :: (text ++ rest)) = .ok (x, rest) :=
  h.reads _ rest (h.starts.skipSpace_append rest)

theorem encode_append (text rest : List Char) :
    encode text ++ rest = '"' :: (text.flatMap escape ++ '"' :: rest) := by
  simp [encode]

theorem starts_encode (text : List Char) : Starts (encode text) :=
  ⟨'"', text.flatMap escape ++ ['"'], rfl, by decide, by decide⟩

theorem takes_string (s : String) : Takes readString (encode s.toList) s where
  starts := starts_encode s.toList
  reads cs rest h := by
    rw [readString, h, encode_append]
    simp only [decode_escape]
    exact congrArg (fun s => Except.ok (s, rest)) (String.ofList_toList)

/-! ## Entries between brackets -/

/-- What is written behind an entry: the further entries and the closing bracket. -/
def behind (closing : Char) (depth : Nat) (rest : List Char) : List (List Char) → List Char
  | [] => lineBreak depth ++ closing :: rest
  | entry :: entries =>
    ',' :: (lineBreak (depth + 1) ++ (entry ++ behind closing depth rest entries))

theorem block_nil_append (opening closing : Char) (depth : Nat) (rest : List Char) :
    block opening closing depth [] ++ rest = opening :: closing :: rest := rfl

theorem block_cons_append (opening closing : Char) (depth : Nat) (rest entry : List Char)
    (entries : List (List Char)) : block opening closing depth (entry :: entries) ++ rest =
      opening :: (lineBreak (depth + 1) ++ (entry ++ behind closing depth rest entries)) := by
  have hbehind : ∀ entries : List (List Char), behind closing depth rest entries =
      (entries.flatMap fun entry => ',' :: lineBreak (depth + 1) ++ entry) ++
        (lineBreak depth ++ closing :: rest) := by
    intro entries
    induction entries with
    | nil => rfl
    | cons entry entries ih => simp [behind, ih]
  simp [block, hbehind]

/-- There are fewer entries than characters. -/
theorem length_lt_behind (closing : Char) (depth : Nat) (rest : List Char) :
    ∀ entries : List (List Char), entries.length < (behind closing depth rest entries).length
  | [] => by simp only [behind, List.length_append, List.length_cons, List.length_nil]; omega
  | entry :: entries => by
    have hentries := length_lt_behind closing depth rest entries
    simp only [behind, List.length_cons, List.length_append]
    omega

theorem starts_block {opening closing : Char} (hspace : isSpace opening = false)
    (hne : opening ≠ ']') : ∀ entries : List (List Char),
      Starts (block opening closing depth entries)
  | [] => ⟨opening, _, rfl, hspace, hne⟩
  | _ :: _ => ⟨opening, _, rfl, hspace, hne⟩

/-! ## Lists -/

theorem nextElement_first (ht : Starts text) (h : skipSpace cs = text ++ rest) :
    nextElement true cs = .ok (some (text ++ rest)) := by
  obtain ⟨c, text, rfl, -, hc⟩ := ht
  rw [nextElement, h]
  split
  · rename_i heq
    exact nomatch heq
  · rename_i heq
    exact absurd (List.cons.inj heq).1 hc
  · rename_i heq
    rw [heq]
    rfl

theorem nextElement_behind_comma (cs : List Char) : nextElement false (',' :: cs) =
    match skipSpace cs with
    | [] => .error .truncated
    | ']' :: _ => .error .malformed
    | rest => .ok (some rest) := rfl

theorem nextElement_comma (ht : Starts text) (h : skipSpace cs = text ++ rest) :
    nextElement false (',' :: cs) = .ok (some (text ++ rest)) := by
  obtain ⟨c, text, rfl, -, hc⟩ := ht
  rw [nextElement_behind_comma, h]
  split
  · rename_i heq
    exact nomatch heq
  · rename_i heq
    exact absurd (List.cons.inj heq).1 hc
  · rfl

theorem nextElement_close {first : Bool} (h : skipSpace cs = ']' :: rest) :
    nextElement first cs = .ok none := by
  rw [nextElement, h]
  rfl

theorem closeList_close (h : skipSpace cs = ']' :: rest) : closeList cs = .ok rest := by
  rw [closeList, h]
  rfl

theorem readElements_close {read : List Char → Except Fault (α × List Char)} {fuel : Nat}
    {first : Bool} (h : skipSpace cs = ']' :: rest) :
    readElements read (fuel + 1) first cs = .ok ([], rest) := by
  rw [readElements, nextElement_close h, closeList_close h]
  rfl

/-- One element is read, and then the others. -/
theorem readElements_cons {read : List Char → Except Fault (α × List Char)} {fuel : Nat}
    {first : Bool} {x : α} {xs : List α} {after : List Char} (htext : Takes read text x)
    (hnext : nextElement first cs = .ok (some (text ++ rest)))
    (hxs : readElements read fuel false rest = .ok (xs, after)) :
    readElements read (fuel + 1) first cs = .ok (x :: xs, after) := by
  rw [readElements, hnext]
  show (read _ >>= _) = _
  rw [htext.reads_append]
  show (readElements read fuel false rest >>= _) = _
  rw [hxs]
  rfl

theorem readElements_behind {read : List Char → Except Fault (α × List Char)}
    {texts : List (List Char)} {xs : List α} (h : List.Forall₂ (Takes read) texts xs) :
    ∀ {fuel : Nat}, texts.length < fuel →
      readElements read fuel false (behind ']' depth rest texts) = .ok (xs, rest) := by
  induction h with
  | nil =>
    intro fuel hfuel
    obtain ⟨fuel, rfl⟩ := Nat.exists_eq_succ_of_ne_zero (Nat.ne_of_gt hfuel)
    exact readElements_close (skipSpace_lineBreak depth _)
  | cons htext _ ih =>
    intro fuel hfuel
    obtain ⟨fuel, rfl⟩ := Nat.exists_eq_succ_of_ne_zero (Nat.ne_of_gt (Nat.zero_lt_of_lt hfuel))
    exact readElements_cons htext (nextElement_comma htext.starts htext.starts.skipSpace_line)
      (ih (Nat.lt_of_succ_lt_succ hfuel))

/-- **A list is read if its elements are.** -/
theorem takes_block {read : List Char → Except Fault (α × List Char)}
    {texts : List (List Char)} {xs : List α} (h : List.Forall₂ (Takes read) texts xs) :
    Takes (readList read) (block '[' ']' depth texts) xs where
  starts := starts_block (by decide) (by decide) texts
  reads cs rest hcs := by
    cases h with
    | nil =>
      rw [block_nil_append] at hcs
      simp only [readList, hcs]
      exact readElements_close (skipSpace_cons (by decide))
    | @cons _ _ texts _ htext htexts =>
      rw [block_cons_append] at hcs
      simp only [readList, hcs]
      refine readElements_cons htext
        (nextElement_first htext.starts htext.starts.skipSpace_line) (readElements_behind htexts ?_)
      -- the text behind the bracket is long enough for all elements
      have hlength := length_lt_behind ']' depth rest texts
      simp only [List.length_append]
      omega

theorem takes_strings (depth : Nat) (texts : List String) :
    Takes (readList readString) (strings depth texts) texts := by
  refine takes_block (List.forall₂_map_left_iff.mpr (List.forall₂_same.mpr ?_))
  exact fun text _ => takes_string text

/-! ## Objects -/

/-- The entries are read one after the other, and take `s` to `t`. -/
inductive Follows (entry : σ → String → List Char → Except Fault (σ × List Char)) :
    σ → List (String × List Char) → σ → Prop
  | nil (s : σ) : Follows entry s [] s
  | cons {s t u : σ} {key : String} {value : List Char} {fields : List (String × List Char)}
      (first : ∀ rest, entry s key (':' :: ' ' :: (value ++ rest)) = .ok (t, rest))
      (others : Follows entry t fields u) : Follows entry s ((key, value) :: fields) u

/-- The key in quotes is read, whether or not a comma comes first. -/
theorem decode_key (key : String) (rest : List Char) :
    (do
      let (text, rest) ← decode (key.toList.flatMap escape ++ '"' :: rest)
      return (some (String.ofList text), rest)) = Except.ok (some key, rest) := by
  rw [decode_escape]
  exact congrArg (fun key => Except.ok (some key, rest)) (String.ofList_toList)

theorem nextKey_first (h : skipSpace cs = encode key.toList ++ rest) :
    nextKey true cs = .ok (some key, rest) := by
  rw [nextKey, h]
  simp only [encode_append]
  exact decode_key key rest

theorem nextKey_behind_comma (cs : List Char) : nextKey false (',' :: cs) =
    match skipSpace cs with
    | [] => .error .truncated
    | '"' :: rest => do
      let (text, rest) ← decode rest
      return (some (String.ofList text), rest)
    | _ => .error .malformed := rfl

theorem nextKey_comma (h : skipSpace cs = encode key.toList ++ rest) :
    nextKey false (',' :: cs) = .ok (some key, rest) := by
  rw [nextKey_behind_comma, h, encode_append]
  exact decode_key key rest

theorem nextKey_close {first : Bool} (h : skipSpace cs = '\x7d' :: rest) :
    nextKey first cs = .ok (none, rest) := by
  rw [nextKey, h]
  rfl

variable {entry : σ → String → List Char → Except Fault (σ × List Char)} {s t : σ}
  {fields : List (String × List Char)}

theorem readEntries_close {fuel : Nat} {first : Bool} (h : skipSpace cs = '\x7d' :: rest) :
    readEntries entry (fuel + 1) first s cs = .ok (s, rest) := by
  rw [readEntries, nextKey_close h]
  rfl

/-- An entry as it is written. -/
def field (x : String × List Char) : List Char := encode x.1.toList ++ ':' :: ' ' :: x.2

theorem skipSpace_field (x : String × List Char) :
    skipSpace (lineBreak depth ++ (field x ++ rest)) =
      encode x.1.toList ++ (':' :: ' ' :: (x.2 ++ rest)) := by
  have happend : field x ++ rest = encode x.1.toList ++ (':' :: ' ' :: (x.2 ++ rest)) := by
    simp [field]
  rw [skipSpace_lineBreak, happend, (starts_encode x.1.toList).skipSpace_append]

/-- One entry is read, and then the others. -/
theorem readEntries_cons {fuel : Nat} {first : Bool} {value : List Char} {u : σ × List Char}
    (hentry : ∀ rest, entry s key (':' :: ' ' :: (value ++ rest)) = .ok (t, rest))
    (hnext : nextKey first cs = .ok (some key, ':' :: ' ' :: (value ++ rest)))
    (hrest : readEntries entry fuel false t rest = .ok u) :
    readEntries entry (fuel + 1) first s cs = .ok u := by
  rw [readEntries, hnext]
  show (entry s key _ >>= _) = _
  rw [hentry]
  exact hrest

theorem readEntries_behind (h : Follows entry s fields t) :
    ∀ {fuel : Nat}, fields.length < fuel →
      readEntries entry fuel false s (behind '\x7d' depth rest (fields.map field)) =
        .ok (t, rest) := by
  induction h with
  | nil s =>
    intro fuel hfuel
    obtain ⟨fuel, rfl⟩ := Nat.exists_eq_succ_of_ne_zero (Nat.ne_of_gt hfuel)
    exact readEntries_close (skipSpace_lineBreak depth _)
  | @cons _ _ _ key value _ first _ ih =>
    intro fuel hfuel
    obtain ⟨fuel, rfl⟩ := Nat.exists_eq_succ_of_ne_zero (Nat.ne_of_gt (Nat.zero_lt_of_lt hfuel))
    exact readEntries_cons first (nextKey_comma (skipSpace_field (key, value)))
      (ih (Nat.lt_of_succ_lt_succ hfuel))

/-- **An object is read if its entries are.** -/
theorem takes_object (h : Follows entry s fields t) :
    Takes (readObject entry s) (object depth fields) t where
  starts := starts_block (by decide) (by decide) (fields.map field)
  reads cs rest hcs := by
    replace hcs : skipSpace cs = block '\x7b' '\x7d' depth (fields.map field) ++ rest := hcs
    cases h with
    | nil s =>
      rw [List.map_nil, block_nil_append] at hcs
      simp only [readObject, hcs]
      exact readEntries_close (skipSpace_cons (by decide))
    | @cons _ _ _ key value fields first others =>
      rw [List.map_cons, block_cons_append] at hcs
      simp only [readObject, hcs]
      refine readEntries_cons first (nextKey_first (skipSpace_field (key, value)))
        (readEntries_behind others ?_)
      have hlength := length_lt_behind '\x7d' depth rest (fields.map field)
      rw [List.length_map] at hlength
      simp only [List.length_append]
      omega

/-- If each entry can be told to take a step, all of them take the steps one after the other. -/
theorem follows_foldl {β : Type} {next : σ → β → σ} {write : β → String × List Char} :
    ∀ {xs : List β} {s : σ},
      (∀ s, ∀ x ∈ xs, ∀ rest,
        entry s (write x).1 (':' :: ' ' :: ((write x).2 ++ rest)) = .ok (next s x, rest)) →
      Follows entry s (xs.map write) (xs.foldl next s)
  | [], s, _ => .nil s
  | x :: _, s, h => by
    refine .cons (h s x List.mem_cons_self) (follows_foldl fun s y hy => ?_)
    exact h s y (List.mem_cons_of_mem x hy)

end RegularLanguages.Json
