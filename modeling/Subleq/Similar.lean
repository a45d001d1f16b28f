/-!
# Similar names

When a name is not defined, the diagnostic suggests names that are.  Two names are similar if they
differ in case only, or if their lengths differ by at most one and at most two single-character
edits turn one into the other.
-/

namespace Subleq.Similar

/-- One row of the distance table, from the row above it.  `above` starts at the column to the left
of the first character of the text, and `left` is the entry of this row in that column. -/
def nextRow (c : Char) : (left : Nat) → (above : List Nat) → List Char → List Nat
  | left, diagonal :: up :: above, d :: text =>
      let entry := if c = d then diagonal else 1 + min (min diagonal up) left
      entry :: nextRow c entry (up :: above) text
  | _, _, _ => []

/-- The last row of the distance table between `source` and `target`, when `row` is the row reached
and `index` the number of characters it stands for. -/
def lastRow (target : List Char) : (index : Nat) → (row : List Nat) → List Char → List Nat
  | _, row, [] => row
  | index, row, c :: source =>
      lastRow target (index + 1) ((index + 1) :: nextRow c (index + 1) row target) source

/-- The edit distance, by rows: the least number of insertions, deletions and substitutions of
single characters that turn one text into the other.  The rows run along the shorter of the two. -/
def distance (s t : List Char) : Nat :=
  let (long, short) := if s.length < t.length then (t, s) else (s, t)
  (lastRow short 0 (List.range (short.length + 1)) long).getLast?.getD 0

/-- Whether one name may be meant where the other is written. -/
def isSimilar (name other : String) : Bool :=
  let s := name.toList.map Char.toLower
  let t := other.toList.map Char.toLower
  s == t || ((name.length - other.length) + (other.length - name.length) ≤ 1 && distance s t ≤ 2)

/-- Puts a name before the first one that is not below it; equal names stay side by side. -/
def insertSorted (name : String) : List String → List String
  | [] => [name]
  | other :: rest =>
      if other < name then other :: insertSorted name rest else name :: other :: rest

/-- At most three of the candidates that are similar to a name, in increasing order. -/
def suggestions (name : String) (candidates : List String) : List String :=
  ((candidates.filter (isSimilar name)).foldr insertSorted []).take 3

end Subleq.Similar
