import Mathlib
import Subleq.Similar

/-!
# The edit distance

`Turns n s t` says that `n` edits, each of which inserts, deletes or replaces one character
anywhere, turn `s` into `t`.  The plain recursion on both texts, `levenshtein`, gives the least such
number (`isLeast_levenshtein`): one edit changes it by one at most, so no row of edits is shorter,
and its own branches say which edits to make.

The table goes its own way in three respects.  It grows at the ends of the texts and not at their
heads, it takes the diagonal where two characters are equal without looking at the other neighbours,
and it may exchange the texts.  The first and the last do not matter, since edits can be made on the
reversed texts and can be undone, nor does the second, since a common character is best kept
(`levenshtein_cons_self`).  What is left is that a row of the table holds the distances of a prefix
of the source from all prefixes of the target (`lastRow_eq`).
-/

namespace Subleq.Similar

variable {s t u : List Char} {n : Nat}

/-! ## Edits -/

/-- One text becomes another by an edit of a single character. -/
inductive Edit : List Char → List Char → Prop
  | insert (before : List Char) (c : Char) (after : List Char) :
      Edit (before ++ after) (before ++ c :: after)
  | delete (before : List Char) (c : Char) (after : List Char) :
      Edit (before ++ c :: after) (before ++ after)
  | substitute (before : List Char) (c d : Char) (after : List Char) :
      Edit (before ++ c :: after) (before ++ d :: after)

/-- So many edits, one after the other, turn one text into another. -/
inductive Turns : Nat → List Char → List Char → Prop
  | done (s : List Char) : Turns 0 s s
  | edit {n : Nat} {s u t : List Char} (hedit : Edit s u) (hrest : Turns n u t) : Turns (n + 1) s t

/-- An edit goes on behind a common character. -/
theorem Edit.cons (c : Char) (h : Edit s t) : Edit (c :: s) (c :: t) := by
  cases h with
  | insert before e after => exact .insert (c :: before) e after
  | delete before e after => exact .delete (c :: before) e after
  | substitute before e e' after => exact .substitute (c :: before) e e' after

/-- An edit can be undone by one. -/
theorem Edit.symm (h : Edit s t) : Edit t s := by
  cases h with
  | insert before c after => exact .delete before c after
  | delete before c after => exact .insert before c after
  | substitute before c d after => exact .substitute before d c after

/-- An edit is one from the other end too. -/
theorem Edit.reverse (h : Edit s t) : Edit s.reverse t.reverse := by
  cases h with
  | insert before c after =>
      simpa using Edit.insert after.reverse c before.reverse
  | delete before c after =>
      simpa using Edit.delete after.reverse c before.reverse
  | substitute before c d after =>
      simpa using Edit.substitute after.reverse c d before.reverse

namespace Turns

/-- Edits go on behind a common character. -/
theorem cons (c : Char) (h : Turns n s t) : Turns n (c :: s) (c :: t) := by
  induction h with
  | done s => exact .done (c :: s)
  | edit hedit _ ih => exact .edit (hedit.cons c) ih

/-- Edits are as many from the other end. -/
theorem reverse (h : Turns n s t) : Turns n s.reverse t.reverse := by
  induction h with
  | done s => exact .done s.reverse
  | edit hedit _ ih => exact .edit hedit.reverse ih

theorem concat (h : Turns n s u) (hedit : Edit u t) : Turns (n + 1) s t := by
  induction h with
  | done s => exact .edit hedit (.done t)
  | edit hfirst _ ih => exact .edit hfirst (ih hedit)

theorem symm (h : Turns n s t) : Turns n t s := by
  induction h with
  | done s => exact .done s
  | edit hedit _ ih => exact ih.concat hedit.symm

end Turns

/-! ## The plain recursion -/

/-- The distance by recursion on both texts: the first character of the one is deleted, that of the
other is inserted, or the one is replaced by the other, which costs nothing if they are equal. -/
def levenshtein : List Char → List Char → Nat
  | [], t => t.length
  | s, [] => s.length
  | c :: s, d :: t =>
      min (min (levenshtein s (d :: t) + 1) (levenshtein (c :: s) t + 1))
        (levenshtein s t + if c = d then 0 else 1)
termination_by s t => s.length + t.length

/-- From the empty text every character has to be put in. -/
@[simp] theorem levenshtein_nil_left (t : List Char) : levenshtein [] t = t.length := by
  rw [levenshtein]

/-- To the empty text every character has to be taken out. -/
@[simp] theorem levenshtein_nil_right (s : List Char) : levenshtein s [] = s.length := by
  cases s with
  | nil => rw [levenshtein_nil_left]
  | cons c s => rw [levenshtein]; exact nofun

/-- The first characters are taken out, put in, or matched with each other, whichever leads to the
least. -/
theorem levenshtein_cons_cons (c d : Char) (s t : List Char) :
    levenshtein (c :: s) (d :: t) =
      min (min (levenshtein s (d :: t) + 1) (levenshtein (c :: s) t + 1))
        (levenshtein s t + if c = d then 0 else 1) := by
  rw [levenshtein]

/-- As many edits as the recursion says are enough. -/
theorem turns_levenshtein (s t : List Char) : Turns (levenshtein s t) s t := by
  induction s generalizing t with
  | nil =>
      rw [levenshtein_nil_left]
      induction t with
      | nil => exact .done []
      | cons d t ih => exact .edit (.insert [] d []) (ih.cons d)
  | cons c s ihs =>
      induction t with
      | nil =>
          have hrest := ihs []
          rw [levenshtein_nil_right] at hrest ⊢
          exact .edit (.delete [] c s) hrest
      | cons d t iht =>
          have hdelete : Turns (levenshtein s (d :: t) + 1) (c :: s) (d :: t) :=
            .edit (.delete [] c s) (ihs (d :: t))
          -- The new character comes first, so that the rest is done behind it.
          have hinsert : Turns (levenshtein (c :: s) t + 1) (c :: s) (d :: t) :=
            .edit (.insert [] d (c :: s)) (iht.cons d)
          have hchange : Turns (levenshtein s t + if c = d then 0 else 1) (c :: s) (d :: t) := by
            split_ifs with heq
            · exact heq ▸ (ihs t).cons c
            · exact .edit (.substitute [] c d s) ((ihs t).cons d)
          rw [levenshtein_cons_cons]
          refine min_rec' (Turns · (c :: s) (d :: t)) ?_ hchange
          exact min_rec' (Turns · (c :: s) (d :: t)) hdelete hinsert

/-! ## Fewer edits are not enough -/

/-- A character more on the left adds one at most. -/
theorem levenshtein_cons_left_le (c : Char) (s t : List Char) :
    levenshtein (c :: s) t ≤ levenshtein s t + 1 := by
  cases t with
  | nil => simp
  | cons d t =>
      rw [levenshtein_cons_cons]
      omega

/-- So does a character more on the right. -/
theorem levenshtein_cons_right_le (d : Char) (s t : List Char) :
    levenshtein s (d :: t) ≤ levenshtein s t + 1 := by
  cases s with
  | nil => simp
  | cons c s =>
      rw [levenshtein_cons_cons]
      omega

/-- It saves one at most. -/
theorem levenshtein_le_cons_left (c : Char) (s t : List Char) :
    levenshtein s t ≤ levenshtein (c :: s) t + 1 := by
  induction t with
  | nil =>
      rw [levenshtein_nil_right, levenshtein_nil_right, List.length_cons]
      omega
  | cons d t ih =>
      have hinsert := levenshtein_cons_right_le d s t
      rw [levenshtein_cons_cons]
      omega

/-- Exchanging the first character adds one at most. -/
theorem levenshtein_cons_left_le_cons_left (c d : Char) (s t : List Char) :
    levenshtein (c :: s) t ≤ levenshtein (d :: s) t + 1 := by
  induction t with
  | nil => simp
  | cons e t ih =>
      rw [levenshtein_cons_cons, levenshtein_cons_cons]
      split_ifs <;> omega

/-- Two texts whose distances from a third one never differ by more than one stay so with a common
text before them. -/
theorem levenshtein_append_le (h : ∀ t, levenshtein s t ≤ levenshtein u t + 1)
    (before t : List Char) :
    levenshtein (before ++ s) t ≤ levenshtein (before ++ u) t + 1 := by
  induction before generalizing t with
  | nil => exact h t
  | cons c before ih =>
      rw [List.cons_append, List.cons_append]
      -- The recursion may leave the first text as it is, so the second one is gone through too.
      induction t with
      | nil => simpa using ih []
      | cons d t iht =>
          have hdelete := ih (d :: t)
          have hchange := ih t
          rw [levenshtein_cons_cons, levenshtein_cons_cons]
          omega

/-- An edit changes the distance by one at most. -/
theorem Edit.levenshtein_le (h : Edit s u) (t : List Char) :
    levenshtein s t ≤ levenshtein u t + 1 := by
  cases h with
  | insert before c after => exact levenshtein_append_le (levenshtein_le_cons_left c after) before t
  | delete before c after => exact levenshtein_append_le (levenshtein_cons_left_le c after) before t
  | substitute before c d after =>
      exact levenshtein_append_le (levenshtein_cons_left_le_cons_left c d after) before t

/-- No edit is needed between equal texts. -/
theorem levenshtein_self (s : List Char) : levenshtein s s = 0 := by
  induction s with
  | nil => rw [levenshtein_nil_left, List.length_nil]
  | cons c s ih => rw [levenshtein_cons_cons, ih, if_pos rfl, Nat.min_zero]

/-- No number of edits is less than the distance. -/
theorem Turns.levenshtein_le (h : Turns n s t) : levenshtein s t ≤ n := by
  induction h with
  | done s => rw [levenshtein_self]
  | edit hedit _ ih => exact (hedit.levenshtein_le _).trans (Nat.succ_le_succ ih)

/-- The recursion gives the least number of edits. -/
theorem isLeast_levenshtein (s t : List Char) : IsLeast {n | Turns n s t} (levenshtein s t) :=
  ⟨turns_levenshtein s t, fun _ h => h.levenshtein_le⟩

/-! ## What the table relies on -/

/-- The distance is the same in both directions. -/
theorem levenshtein_comm (s t : List Char) : levenshtein s t = levenshtein t s := by
  apply le_antisymm
  · exact (turns_levenshtein t s).symm.levenshtein_le
  · exact (turns_levenshtein s t).symm.levenshtein_le

theorem levenshtein_reverse (s t : List Char) :
    levenshtein s.reverse t.reverse = levenshtein s t := by
  apply le_antisymm
  · exact (turns_levenshtein s t).reverse.levenshtein_le
  · simpa using (turns_levenshtein s.reverse t.reverse).reverse.levenshtein_le

/-- A common first character is best kept. -/
theorem levenshtein_cons_self (c : Char) (s t : List Char) :
    levenshtein (c :: s) (c :: t) = levenshtein s t := by
  have hdelete : levenshtein s t ≤ levenshtein s (c :: t) + 1 := by
    rw [levenshtein_comm s t, levenshtein_comm s (c :: t)]
    exact levenshtein_le_cons_left c t s
  have hinsert := levenshtein_le_cons_left c s t
  rw [levenshtein_cons_cons, if_pos rfl]
  omega

/-- The recursion from the ends of the texts, as the table has it. -/
theorem levenshtein_concat (c d : Char) (s t : List Char) :
    levenshtein (s ++ [c]) (t ++ [d]) =
      if c = d then levenshtein s t
      else
        1 + min (min (levenshtein s t) (levenshtein s (t ++ [d]))) (levenshtein (s ++ [c]) t) := by
  rw [← levenshtein_reverse (s ++ [c]), ← levenshtein_reverse s (t ++ [d]),
    ← levenshtein_reverse (s ++ [c]) t, ← levenshtein_reverse s t, List.reverse_concat,
    List.reverse_concat]
  split_ifs with heq
  · rw [heq, levenshtein_cons_self]
  · rw [levenshtein_cons_cons, if_neg heq]
    omega

/-! ## The table -/

/-- The shortest beginning of a text is the empty one. -/
theorem exists_inits_eq_cons (text : List Char) : ∃ longer, text.inits = [] :: longer := by
  cases text with
  | nil => exact ⟨[], rfl⟩
  | cons d text => exact ⟨_, List.inits_cons d text⟩

/-- The beginnings of a text, one character further on. -/
theorem map_inits_cons (f : List Char → Nat) (q : List Char) (d : Char) (text : List Char) :
    ((d :: text).inits.map fun more => f (q ++ more)) =
      f q :: text.inits.map fun more => f (q ++ [d] ++ more) := by
  simp [Function.comp_def]

/-- A row from the prefix `q` of the target on, `text` being the rest of it.  The row above stands
for the prefix `p` of the source, and this one for the prefix with `c` added. -/
theorem nextRow_eq (c : Char) (p q text : List Char) :
    levenshtein (p ++ [c]) q ::
        nextRow c (levenshtein (p ++ [c]) q)
          (text.inits.map fun more => levenshtein p (q ++ more)) text =
      text.inits.map fun more => levenshtein (p ++ [c]) (q ++ more) := by
  induction text generalizing q with
  | nil => simp [nextRow]
  | cons d text ih =>
      have hentry := levenshtein_concat c d p q
      have hrest := ih (q ++ [d])
      obtain ⟨longer, hlonger⟩ := exists_inits_eq_cons text
      rw [map_inits_cons (levenshtein p), map_inits_cons (levenshtein (p ++ [c])), ← hrest, hlonger,
        List.map_cons, List.append_nil, nextRow, ← hentry]

/-- The rows down to the last one, `p` being the prefix of the source that has been read. -/
theorem lastRow_eq (target p source : List Char) :
    lastRow target p.length (target.inits.map (levenshtein p)) source =
      target.inits.map (levenshtein (p ++ source)) := by
  induction source generalizing p with
  | nil => rw [lastRow, List.append_nil]
  | cons c source ih =>
      have hrow : (p.length + 1) ::
            nextRow c (p.length + 1) (target.inits.map (levenshtein p)) target =
          target.inits.map (levenshtein (p ++ [c])) := by
        simpa using nextRow_eq c p [] target
      have hrest := ih (p ++ [c])
      rw [List.length_append, List.length_singleton, List.append_assoc,
        List.singleton_append] at hrest
      rw [lastRow, hrow, hrest]

/-- The beginnings have all lengths up to that of the text. -/
theorem map_length_inits (text : List Char) :
    text.inits.map List.length = List.range (text.length + 1) := by
  refine List.ext_getElem (by simp) ?_
  intro i hleft _
  rw [List.length_map, List.length_inits] at hleft
  simp only [List.getElem_map, List.getElem_inits, List.length_take, List.getElem_range]
  omega

/-- The longest beginning is the text itself. -/
theorem getLast?_inits (text : List Char) : text.inits.getLast? = some text := by
  rw [List.getLast?_eq_getElem?, List.length_inits, Nat.add_sub_cancel,
    List.getElem?_eq_getElem (by simp), List.getElem_inits, List.take_length]

/-- The last row of the table ends in the distance. -/
theorem getLast?_lastRow (source target : List Char) :
    (lastRow target 0 (List.range (target.length + 1)) source).getLast? =
      some (levenshtein source target) := by
  have hfirst : List.range (target.length + 1) = target.inits.map (levenshtein []) := by
    rw [← map_length_inits]
    exact List.map_congr_left fun part _ => (levenshtein_nil_left part).symm
  have hlast := lastRow_eq target [] source
  rw [List.length_nil, List.nil_append] at hlast
  rw [hfirst, hlast, List.getLast?_map, getLast?_inits, Option.map_some]

/-- What the program computes is the distance. -/
theorem distance_eq (s t : List Char) : distance s t = levenshtein s t := by
  by_cases hshorter : s.length < t.length
  · simp only [distance, if_pos hshorter, getLast?_lastRow, Option.getD_some, levenshtein_comm s t]
  · simp only [distance, if_neg hshorter, getLast?_lastRow, Option.getD_some]

/-- The distance by rows is the least number of edits of single characters that turn one text into
the other, and what the plain recursion on both texts gives. -/
theorem isLeast_distance (s t : List Char) :
    IsLeast {n | Turns n s t} (distance s t) ∧ distance s t = levenshtein s t := by
  rw [distance_eq]
  exact ⟨isLeast_levenshtein s t, rfl⟩

end Subleq.Similar
