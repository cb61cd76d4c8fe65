import Mathlib.Data.List.Basic
import Mathlib.Data.List.TakeWhile
import RegularLanguages.Text.Blank
import RegularLanguages.Text.Lines

/-!
# Joined lines and padded texts

Texts without line breaks that are joined by line breaks are the lines of what comes out, and
trimming takes away the blanks that a text has been padded with.

Results:
* **`lines_intercalate`**: the lines of joined texts.
* **`trim_padded`**: the blanks around a text.
-/

namespace RegularLanguages.Text

variable {cs left right : List Char}

/-! ## Lines -/

theorem lines_ne_nil : ∀ cs, lines cs ≠ []
  | [] => by simp [lines]
  | c :: cs => by
    rw [lines]
    split
    · simp
    · split <;> simp

theorem lines_cons_of_ne {c : Char} (hc : c ≠ '\n') (cs : List Char) :
    lines (c :: cs) = (lines cs).modifyHead (c :: ·) := by
  rw [lines, if_neg hc]
  split
  · rename_i h
    exact absurd h (lines_ne_nil cs)
  · rename_i h
    rw [h]
    rfl

/-- A text without line break belongs to one line, whatever follows. -/
theorem lines_append : ∀ {cs : List Char}, '\n' ∉ cs → ∀ rest,
    lines (cs ++ rest) = (lines rest).modifyHead (cs ++ ·)
  | [], _, rest => (congrFun List.modifyHead_id (lines rest)).symm
  | c :: cs, h, rest => by
    obtain ⟨hc, hcs⟩ := List.ne_and_not_mem_of_not_mem_cons h
    rw [List.cons_append, lines_cons_of_ne (Ne.symm hc), lines_append hcs,
      List.modifyHead_modifyHead]
    rfl

/-- **The lines of joined texts** are these texts. -/
theorem lines_intercalate : ∀ {texts : List (List Char)}, texts ≠ [] →
    (∀ text ∈ texts, '\n' ∉ text) → lines (['\n'].intercalate texts) = texts
  | [], h, _ => absurd rfl h
  | [text], _, h => by
    have hlines := lines_append (h text List.mem_cons_self) []
    rw [List.append_nil] at hlines
    rw [List.intercalate_singleton, hlines]
    exact congrArg (fun line => [line]) (List.append_nil text)
  | text :: next :: texts, _, h => by
    obtain ⟨htext, hrest⟩ := List.forall_mem_cons.mp h
    have hbreak (cs : List Char) : lines ('\n' :: cs) = [] :: lines cs := if_pos rfl
    rw [List.intercalate_cons_cons, List.append_assoc, List.singleton_append, lines_append htext,
      hbreak, lines_intercalate (List.cons_ne_nil _ _) hrest, List.modifyHead_cons,
      List.append_nil]

theorem lines_of_not_mem (h : '\n' ∉ cs) : lines cs = [cs] := by
  have hlines : lines (['\n'].intercalate [cs]) = [cs] :=
    lines_intercalate (List.cons_ne_nil _ _) (List.forall_mem_singleton.mpr h)
  rwa [List.intercalate_singleton] at hlines

/-! ## Joined texts -/

/-- Nothing but the separator and the texts occurs in what they are joined to. -/
theorem forall_mem_intercalate {P : Char → Prop} {separator : List Char}
    (hs : ∀ c ∈ separator, P c) : ∀ {texts : List (List Char)},
    (∀ text ∈ texts, ∀ c ∈ text, P c) → ∀ c ∈ separator.intercalate texts, P c
  | [], _ => fun c hc => absurd hc List.not_mem_nil
  | [text], h => by
    rw [List.intercalate_singleton]
    exact h text List.mem_cons_self
  | text :: next :: texts, h => by
    obtain ⟨htext, hrest⟩ := List.forall_mem_cons.mp h
    rw [List.intercalate_cons_cons]
    refine List.forall_mem_append.mpr ⟨List.forall_mem_append.mpr ⟨htext, hs⟩, ?_⟩
    exact forall_mem_intercalate hs hrest

/-- Joined texts end with the last one. -/
theorem exists_intercalate_eq (separator : List Char) : ∀ {texts : List (List Char)},
    texts ≠ [] → ∃ front, ∃ last ∈ texts, separator.intercalate texts = front ++ last
  | [], h => absurd rfl h
  | [text], _ => ⟨[], text, List.mem_cons_self, List.intercalate_singleton⟩
  | text :: next :: texts, _ => by
    obtain ⟨front, last, hlast, heq⟩ :=
      exists_intercalate_eq separator (List.cons_ne_nil next texts)
    refine ⟨text ++ separator ++ front, last, List.mem_cons_of_mem _ hlast, ?_⟩
    rw [List.intercalate_cons_cons, heq, List.append_assoc _ front]

/-! ## Blanks around a text -/

/-- The text neither starts nor ends with a blank. -/
structure Trimmed (cs : List Char) : Prop where
  head : ∀ c, cs.head? = some c → isBlank c = false
  last : ∀ c, cs.getLast? = some c → isBlank c = false

theorem trimmed_of_forall (h : ∀ c ∈ cs, isBlank c = false) : Trimmed cs :=
  ⟨fun c hc => h c (List.mem_of_head? hc), fun c hc => h c (List.mem_of_getLast? hc)⟩

theorem trimmed_append (hne : left ≠ []) (hne' : right ≠ [])
    (hl : ∀ c, left.head? = some c → isBlank c = false)
    (hr : ∀ c, right.getLast? = some c → isBlank c = false) : Trimmed (left ++ right) := by
  constructor
  · intro c hc
    rw [List.head?_append_of_ne_nil _ hne] at hc
    exact hl c hc
  · intro c hc
    rw [List.getLast?_append_of_ne_nil _ hne'] at hc
    exact hr c hc

theorem trimStart_padded (hleft : ∀ c ∈ left, isBlank c = true)
    (h : ∀ c, cs.head? = some c → isBlank c = false) : trimStart (left ++ cs) = cs := by
  rw [trimStart, List.dropWhile_append_of_pos hleft]
  cases cs with
  | nil => rfl
  | cons c cs => rw [List.dropWhile_cons_of_neg (by simp [h c rfl])]

theorem trimEnd_padded (hright : ∀ c ∈ right, isBlank c = true)
    (h : ∀ c, cs.getLast? = some c → isBlank c = false) : trimEnd (cs ++ right) = cs := by
  have hstart : trimStart (right.reverse ++ cs.reverse) = cs.reverse :=
    trimStart_padded (fun c hc => hright c (List.mem_reverse.mp hc))
      fun c hc => h c (List.head?_reverse ▸ hc)
  rw [trimEnd, List.reverse_append]
  exact (congrArg List.reverse hstart).trans (List.reverse_reverse cs)

/-- What is taken away at the start is blank. -/
theorem exists_trimStart (cs : List Char) :
    ∃ left, (∀ c ∈ left, isBlank c = true) ∧ cs = left ++ trimStart cs :=
  ⟨cs.takeWhile isBlank, fun _ hc => List.mem_takeWhile_imp hc,
    List.takeWhile_append_dropWhile.symm⟩

/-- What is taken away at the end is blank. -/
theorem exists_trimEnd (cs : List Char) :
    ∃ right, (∀ c ∈ right, isBlank c = true) ∧ cs = trimEnd cs ++ right := by
  obtain ⟨left, hleft, hcs⟩ := exists_trimStart cs.reverse
  refine ⟨left.reverse, fun c hc => hleft c (List.mem_reverse.mp hc), ?_⟩
  calc
    cs = cs.reverse.reverse := (List.reverse_reverse cs).symm
    _ = (left ++ trimStart cs.reverse).reverse := congrArg List.reverse hcs
    _ = trimEnd cs ++ left.reverse := List.reverse_append

/-- A text is padded with what trimming takes away. -/
theorem exists_trim (cs : List Char) : ∃ left right, (∀ c ∈ left, isBlank c = true) ∧
    (∀ c ∈ right, isBlank c = true) ∧ cs = left ++ trim cs ++ right := by
  obtain ⟨left, hleft, hcs⟩ := exists_trimStart cs
  obtain ⟨right, hright, hstart⟩ := exists_trimEnd (trimStart cs)
  refine ⟨left, right, hleft, hright, ?_⟩
  rw [List.append_assoc, trim, ← hstart]
  exact hcs

/-- Trimming the end goes no further than to a character that is no blank. -/
theorem trimEnd_append {c : Char} (hc : isBlank c = false) (cs right : List Char) :
    trimEnd (cs ++ c :: right) = cs ++ c :: trimEnd right := by
  have hdrop : (right.reverse ++ c :: cs.reverse).dropWhile isBlank =
      right.reverse.dropWhile isBlank ++ c :: cs.reverse := by
    rw [List.dropWhile_append]
    split
    · rename_i hnil
      rw [List.isEmpty_iff.mp hnil, List.dropWhile_cons_of_neg (by simp [hc]), List.nil_append]
    · rfl
  have hreverse : (cs ++ c :: right).reverse = right.reverse ++ c :: cs.reverse := by simp
  rw [trimEnd, hreverse, hdrop, trimEnd]
  simp

/-- **The blanks around a text** are taken away, and nothing else. -/
theorem trim_padded (hleft : ∀ c ∈ left, isBlank c = true) (hright : ∀ c ∈ right, isBlank c = true)
    (hne : cs ≠ []) (h : Trimmed cs) : trim (left ++ cs ++ right) = cs := by
  have hhead (c : Char) (hc : (cs ++ right).head? = some c) : isBlank c = false := by
    rw [List.head?_append_of_ne_nil _ hne] at hc
    exact h.head c hc
  rw [trim, List.append_assoc, trimStart_padded hleft hhead, trimEnd_padded hright h.last]

theorem Trimmed.trim_append_blank (h : Trimmed cs) (hne : cs ≠ []) :
    trim (cs ++ [' ']) = cs := by
  have hpadded : trim ([] ++ cs ++ [' ']) = cs :=
    trim_padded (List.forall_mem_nil _) (List.forall_mem_singleton.mpr (by decide)) hne h
  rwa [List.nil_append] at hpadded

theorem Trimmed.trim_eq (h : Trimmed cs) : trim cs = cs := by
  have hnone (c : Char) (hc : c ∈ []) : isBlank c = true := absurd hc List.not_mem_nil
  have hstart : trimStart ([] ++ cs) = cs := trimStart_padded hnone h.head
  have hend : trimEnd (cs ++ []) = cs := trimEnd_padded hnone h.last
  rw [List.nil_append] at hstart
  rw [List.append_nil] at hend
  rw [trim, hstart, hend]

end RegularLanguages.Text
