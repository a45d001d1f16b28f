import Mathlib
import Subleq.Text.Lines

/-!
# Lines by line feeds

A text is cut into lines in two ways: at its line feeds alone, which is `List.splitOn '\n'`, and at
all of its line boundaries (`Text.lines`).  Where line feeds are the only boundaries the second way
gives the lines of the first, but for an empty one at the end (`Text.splitOn_eq_lines`).

The line feeds before a place are counted by what stands before it, so the line that the place is on
can be found by its number (`Text.getElem?_splitOn_newline`).
-/

namespace Subleq.Text

variable {text : List Char}

/-- No character but a line feed ends a line. -/
def OnlyLineFeeds (text : List Char) : Prop := ∀ c ∈ text, isLineBreak c = true → c = '\n'

/-- A line feed in front leaves an empty line. -/
theorem splitOn_newline_cons (rest : List Char) :
    ('\n' :: rest).splitOn '\n' = [] :: rest.splitOn '\n' := by
  rw [List.splitOn, List.splitOnP_cons_eq_if_modifyHead, if_pos (beq_self_eq_true '\n')]
  rfl

/-- Any other character belongs to the first line. -/
theorem splitOn_cons {c : Char} (hc : c ≠ '\n') (rest : List Char) :
    (c :: rest).splitOn '\n' = (rest.splitOn '\n').modifyHead (c :: ·) := by
  rw [List.splitOn, List.splitOnP_cons_eq_if_modifyHead, if_neg (by simpa using hc)]
  rfl

/-- The boundary at the end of a text opens no line, where a line feed does. -/
theorem splitOn_eq_linesFrom (h : OnlyLineFeeds text) (current : List Char) :
    ∃ last, (last = [] ∨ last = [[]]) ∧
      (text.splitOn '\n').modifyHead (current.reverse ++ ·) = linesFrom current text ++ last := by
  -- by induction on the text, with the line so far in reverse
  induction text generalizing current with
  | nil =>
      cases current with
      | nil => exact ⟨[[]], .inr rfl, rfl⟩
      | cons c current => exact ⟨[], .inl rfl, by simp [linesFrom]⟩
  | cons c rest ih =>
      obtain ⟨hc, hrest⟩ := List.forall_mem_cons.mp h
      -- no carriage return stands before a line feed, so every line break counts by itself
      have hreturn : c ≠ '\r' := by
        rintro rfl
        exact absurd (hc rfl) (by decide)
      have hstep : linesFrom current (c :: rest) = if isLineBreak c then
          current.reverse :: linesFrom [] rest else linesFrom (c :: current) rest := by
        rw [linesFrom]
        exact fun more heq _ => hreturn heq
      rw [hstep]
      by_cases hbreak : isLineBreak c = true
      · obtain rfl := hc hbreak
        obtain ⟨last, hlast, heq⟩ := ih hrest []
        refine ⟨last, hlast, ?_⟩
        rw [if_pos hbreak, splitOn_newline_cons, List.cons_append, ← heq]
        obtain ⟨first, more, hlines⟩ := List.exists_cons_of_ne_nil (List.splitOn_ne_nil '\n' rest)
        simp [hlines]
      · obtain ⟨last, hlast, heq⟩ := ih hrest (c :: current)
        have hne : c ≠ '\n' := fun heq => hbreak (heq ▸ rfl)
        refine ⟨last, hlast, ?_⟩
        rw [if_neg hbreak, splitOn_cons hne, ← heq]
        obtain ⟨first, more, hlines⟩ := List.exists_cons_of_ne_nil (List.splitOn_ne_nil '\n' rest)
        simp [hlines]

/-- The two ways to cut a text into lines differ in an empty line at the end at most. -/
theorem splitOn_eq_lines (h : OnlyLineFeeds text) :
    ∃ last, (last = [] ∨ last = [[]]) ∧ text.splitOn '\n' = lines text ++ last := by
  obtain ⟨last, hlast, heq⟩ := splitOn_eq_linesFrom h []
  refine ⟨last, hlast, ?_⟩
  obtain ⟨first, more, hlines⟩ := List.exists_cons_of_ne_nil (List.splitOn_ne_nil '\n' text)
  rw [hlines] at heq ⊢
  exact heq

/-- There is one line more than there are line feeds. -/
theorem length_splitOn (text : List Char) :
    (text.splitOn '\n').length = text.count '\n' + 1 := by
  induction text with
  | nil => rfl
  | cons c rest ih =>
      by_cases hc : c = '\n'
      · rw [hc, splitOn_newline_cons, List.length_cons, ih, List.count_cons_self]
      · rw [splitOn_cons hc, List.length_modifyHead, ih, List.count_cons_of_ne hc]

/-- The first line goes up to the first line feed. -/
theorem head?_splitOn (text : List Char) :
    (text.splitOn '\n')[0]? = some (text.takeWhile (· != '\n')) := by
  induction text with
  | nil => rfl
  | cons c rest ih =>
      by_cases hc : c = '\n'
      · rw [hc, splitOn_newline_cons]
        rfl
      · rw [splitOn_cons hc, List.takeWhile_cons_of_pos (by simpa using hc)]
        obtain ⟨first, more, hlines⟩ := List.exists_cons_of_ne_nil (List.splitOn_ne_nil '\n' rest)
        rw [hlines] at ih ⊢
        rw [← Option.some.inj ih]
        rfl

/-- What holds of a text holds of one of its lines, if it always comes from one side of a line
feed. -/
theorem exists_line {P : List Char → Prop}
    (hside : ∀ before after, P (before ++ '\n' :: after) → P before ∨ P after) (h : P text) :
    ∃ line ∈ text.splitOn '\n', P line := by
  have hjoined : ['\n'].intercalate (text.splitOn '\n') = text := List.intercalate_splitOn '\n'
  rw [← hjoined] at h
  obtain ⟨first, rest, hlines⟩ := List.exists_cons_of_ne_nil (List.splitOn_ne_nil '\n' text)
  rw [hlines] at h ⊢
  clear hlines hjoined
  induction rest generalizing first with
  | nil => exact ⟨first, List.mem_cons_self, by simpa using h⟩
  | cons second rest ih =>
      rw [List.intercalate_cons_cons, List.append_assoc, List.singleton_append] at h
      rcases hside first _ h with h | h
      · exact ⟨first, List.mem_cons_self, h⟩
      · obtain ⟨line, hline, hP⟩ := ih second h
        exact ⟨line, List.mem_cons_of_mem _ hline, hP⟩

/-- What stands after a line feed starts the line whose number is that of the line feeds before. -/
theorem getElem?_splitOn_newline (before rest : List Char) :
    ((before ++ '\n' :: rest).splitOn '\n')[(before ++ ['\n']).count '\n']? =
      some (rest.takeWhile (· != '\n')) := by
  have happend : (before ++ '\n' :: rest).splitOn '\n' =
      before.splitOn '\n' ++ rest.splitOn '\n' :=
    List.splitOnP_append_cons before rest rfl
  have hcount : (before ++ ['\n']).count '\n' = (before.splitOn '\n').length + 0 := by
    rw [length_splitOn, List.count_append, List.count_singleton_self]
  rw [happend, hcount, List.getElem?_append_right (by omega), Nat.add_sub_cancel_left,
    head?_splitOn]

end Subleq.Text
