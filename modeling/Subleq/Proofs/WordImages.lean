import Mathlib
import Subleq.Proofs.ImageRoundTrip
import Subleq.Proofs.Lexemes
import Subleq.Proofs.Lines
import Subleq.Proofs.Numerals

/-!
# Images as words

`Words.Arranged cells text` says that a text lists the numerals of the cells in order, however it is
laid out: on any number of lines, with spaces and tabs around the numerals and at least one between
two of them on a line, with blank lines, and with a comment at the end of any line.

Such a text is loaded as the cells that it lists, and what is written as words is such a text
(`Image.loadImage_of_words`).  On the way the text is told from a JSON document, cut into lines at
all line boundaries and into words at all blanks, and every word is read as a numeral of any script;
none of this may see anything in a numeral, a comment or a gap that is not there.

A cell with too many digits is neither written nor read.  A text that lists one is refused at the
first line that does (`Words.readLines_cases`), with the line in the message.
-/

namespace Subleq

/-! ## Arranged numerals -/

namespace Words

def isSpacing (c : Char) : Bool := c == ' ' || c == '\t'

@[simp]
theorem isSpacing_space : isSpacing ' ' = true := rfl

@[simp]
theorem isSpacing_tab : isSpacing '\t' = true := rfl

/-- Numerals in order, with spaces and tabs around them and at least one between two of them. -/
inductive Spaced : (cells : List Int) → (text : List Char) → Prop
  | nil {gap : List Char} : (∀ c ∈ gap, isSpacing c = true) → Spaced [] gap
  | cons {cell : Int} {cells : List Int} {gap rest : List Char} :
      (∀ c ∈ gap, isSpacing c = true) → (∀ c ∈ rest.head?, isSpacing c = true) →
      Spaced cells rest → Spaced (cell :: cells) (gap ++ ((toString cell).toList ++ rest))

/-- The end of a line: nothing, or a comment that does not go over the line. -/
inductive Remark : List Char → Prop
  | nil : Remark []
  | comment {body : List Char} : (∀ c ∈ body, Text.isLineBreak c = false) → Remark (';' :: body)

/-- A line with the numerals of some cells. -/
inductive Line : (cells : List Int) → (line : List Char) → Prop
  | mk {cells : List Int} {numerals remark : List Char} :
      Spaced cells numerals → Remark remark → Line cells (numerals ++ remark)

/-- A text whose lines, broken by line feeds, list the cells together. -/
def Arranged (cells : List Int) (text : List Char) : Prop :=
  ∃ groups, List.Forall₂ Line groups (text.splitOn '\n') ∧ cells = groups.flatten

/-- What is said of lines, counted from `number` on, one of which lists a cell with too many digits:
its number, and the line without its comment. -/
def Overlong (path : String) (number : Nat) (lines : List (List Char)) (fault : Document.Fault) :
    Prop :=
  ∃ index line cells, lines[index]? = some line ∧ Line cells line ∧
    (∃ cell ∈ cells, Digits.isWritable cell = false) ∧
    fault = .badWord path (number + index) (Text.strip (line.takeWhile (· != ';')))

end Words

/-! ## Words of a line -/

namespace Text

variable {gap run rest : List Char}

/-- What is not blank is put into the current word. -/
theorem wordsFrom_run (hrun : ∀ c ∈ run, isBlank c = false) (current rest : List Char) :
    wordsFrom current (run ++ rest) = wordsFrom (run.reverse ++ current) rest := by
  induction run generalizing current with
  | nil => rfl
  | cons c run ih =>
      obtain ⟨hc, hrun⟩ := List.forall_mem_cons.mp hrun
      rw [List.cons_append, wordsFrom, hc, if_neg Bool.false_ne_true, ih hrun, List.reverse_cons,
        List.append_assoc, List.singleton_append]

/-- A gap in front makes no word. -/
theorem words_gap (hgap : ∀ c ∈ gap, isBlank c = true) (rest : List Char) :
    words (gap ++ rest) = words rest := by
  induction gap with
  | nil => rfl
  | cons c gap ih =>
      obtain ⟨hc, hgap⟩ := List.forall_mem_cons.mp hgap
      rw [List.cons_append, words, wordsFrom, hc, if_pos rfl]
      exact ih hgap

/-- A run of characters that are not blank is a word, if it goes on with a blank. -/
theorem words_run (hne : run ≠ []) (hrun : ∀ c ∈ run, isBlank c = false)
    (hrest : ∀ c ∈ rest.head?, isBlank c = true) : words (run ++ rest) = run :: words rest := by
  have hempty : run.reverse.isEmpty = false := by simpa using hne
  rw [words, wordsFrom_run hrun, List.append_nil]
  cases rest with
  | nil =>
      rw [wordsFrom, hempty, List.reverse_reverse]
      rfl
  | cons c rest =>
      have hskip : words (c :: rest) = words rest :=
        words_gap (List.forall_mem_singleton.mpr (hrest c rfl)) rest
      rw [hskip, wordsFrom, hrest c rfl, if_pos rfl, hempty, List.reverse_reverse]
      rfl

/-- Blanks at the end of a text belong to no word. -/
theorem wordsFrom_append_gap (hgap : ∀ c ∈ gap, isBlank c = true) (current text : List Char) :
    wordsFrom current (text ++ gap) = wordsFrom current text := by
  induction text generalizing current with
  | nil =>
      rw [List.nil_append]
      cases gap with
      | nil => rfl
      | cons c gap =>
          obtain ⟨hc, hgap⟩ := List.forall_mem_cons.mp hgap
          have hnone : wordsFrom [] gap = [] := by
            have h := words_gap hgap []
            rwa [List.append_nil] at h
          simp only [wordsFrom, hc, if_true, hnone]
  | cons c text ih => rw [List.cons_append, wordsFrom, wordsFrom, ih, ih]

/-- Stripping does not change the words. -/
theorem words_strip (text : List Char) : words (strip text) = words text := by
  have hblank : ∀ run : List Char, ∀ c ∈ run.takeWhile isBlank, isBlank c = true :=
    fun run c hc => List.mem_takeWhile_imp hc
  have hfront : words (text.dropWhile isBlank) = words text := by
    have h := words_gap (hblank text) (text.dropWhile isBlank)
    rw [List.takeWhile_append_dropWhile] at h
    exact h.symm
  -- the blanks in front first, then those at the end
  rw [← hfront, strip, stripBy]
  generalize text.dropWhile isBlank = inner
  have hback : inner = (inner.reverse.dropWhile isBlank).reverse ++
      (inner.reverse.takeWhile isBlank).reverse := by
    rw [← List.reverse_append, List.takeWhile_append_dropWhile, List.reverse_reverse]
  have hgap : ∀ c ∈ (inner.reverse.takeWhile isBlank).reverse, isBlank c = true :=
    fun c hc => hblank _ c (List.mem_reverse.mp hc)
  -- a gap at the end makes no word either
  have h := wordsFrom_append_gap hgap [] (inner.reverse.dropWhile isBlank).reverse
  rw [← hback] at h
  exact h.symm

end Text

/-! ## Lines -/

namespace Words

variable {cells : List Int} {text line : List Char}

/-- What may stand between the words of a line is blank. -/
theorem isBlank_of_isSpacing {c : Char} (h : isSpacing c = true) : Text.isBlank c = true := by
  rw [isSpacing, Bool.or_eq_true, beq_iff_eq, beq_iff_eq] at h
  rcases h with rfl | rfl <;> rfl

/-- What stands between numerals, and in them. -/
theorem Spaced.mem (h : Spaced cells text) {c : Char} (hc : c ∈ text) :
    isSpacing c = true ∨ c = '-' ∨ c.isDigit = true := by
  induction h with
  | nil hgap => exact .inl (hgap c hc)
  | cons hgap _ _ ih =>
      rcases List.mem_append.mp hc with hc | hc
      · exact .inl (hgap c hc)
      rcases List.mem_append.mp hc with hc | hc
      · exact .inr (Numeral.mem_toString hc)
      · exact ih hc

/-- Neither a comment nor another line nor an object starts among numerals. -/
theorem Spaced.ne (h : Spaced cells text) {c : Char} (hc : c ∈ text) :
    c ≠ ';' ∧ Text.isLineBreak c = false ∧ c ≠ '\x7b' := by
  rcases h.mem hc with hspacing | rfl | hdigit
  · rw [isSpacing, Bool.or_eq_true, beq_iff_eq, beq_iff_eq] at hspacing
    rcases hspacing with rfl | rfl <;> decide
  · decide
  · obtain ⟨hlow, hhigh⟩ := Text.toNat_of_isDigit hdigit
    refine ⟨?_, ?_, ?_⟩
    · rintro rfl
      exact absurd hdigit (by decide)
    · simp only [Text.isLineBreak, Bool.or_eq_false_iff, Bool.and_eq_false_iff,
        decide_eq_false_iff_not, beq_eq_false_iff_ne]
      omega
    · rintro rfl
      exact absurd hdigit (by decide)

/-- The words of a line are its numerals. -/
theorem Spaced.words_eq (h : Spaced cells text) :
    Text.words text = cells.map fun cell => (toString cell).toList := by
  induction h with
  | nil hgap =>
      have hwords := Text.words_gap (fun c hc => isBlank_of_isSpacing (hgap c hc)) []
      rwa [List.append_nil] at hwords
  | @cons cell cells gap rest hgap hrest _ ih =>
      rw [Text.words_gap fun c hc => isBlank_of_isSpacing (hgap c hc),
        Text.words_run (Numeral.toString_ne_nil cell)
          (fun c hc => Numeral.isBlank_of_mem_toString hc)
          (fun c hc => isBlank_of_isSpacing (hrest c hc)), ih, List.map_cons]

/-- Numerals are read as the cells, unless one of them has too many digits. -/
theorem mapM_decimal?_toString (cells : List Int) :
    (cells.map fun cell => (toString cell).toList).mapM Numeral.decimal? =
      if cells.all Digits.isWritable then some cells else none := by
  induction cells with
  | nil => rfl
  | cons cell cells ih =>
      rw [List.map_cons, List.mapM_cons, Numeral.decimal?_toString, ih, List.all_cons]
      cases Digits.isWritable cell with
      | false => rfl
      | true => cases cells.all Digits.isWritable <;> rfl

/-- What is before the comment of a line. -/
theorem Line.exists_spaced (h : Line cells line) :
    ∃ numerals remark, line = numerals ++ remark ∧ Spaced cells numerals ∧ Remark remark ∧
      line.takeWhile (· != ';') = numerals := by
  obtain ⟨hspaced, hremark⟩ := h
  refine ⟨_, _, rfl, hspaced, hremark, Text.takeWhile_append_of_stops ?_ ?_⟩
  · intro c hc
    simpa using (hspaced.ne hc).1
  · cases hremark with
    | nil => exact Text.stops_nil
    | comment _ => exact Text.stops_cons.mpr rfl

/-- The cells of a line are read from it, unless one of them has too many digits. -/
theorem Line.readWords?_eq (h : Line cells line) :
    Document.readWords? (Text.strip (line.takeWhile (· != ';'))) =
      if cells.all Digits.isWritable then some cells else none := by
  obtain ⟨numerals, remark, -, hspaced, -, htake⟩ := h.exists_spaced
  rw [htake, Document.readWords?, Text.words_strip, hspaced.words_eq, mapM_decimal?_toString]

/-- There is no line break in a line. -/
theorem Line.isLineBreak_eq (h : Line cells line) {c : Char} (hc : c ∈ line) :
    Text.isLineBreak c = false := by
  obtain ⟨hspaced, hremark⟩ := h
  rcases List.mem_append.mp hc with hc | hc
  · exact (hspaced.ne hc).2.1
  · cases hremark with
    | nil => cases hc
    | comment hbody =>
        rcases List.mem_cons.mp hc with rfl | hc
        · decide
        · exact hbody c hc

end Words

/-- The first character that is left over is left over of one part or the other. -/
theorem Text.head?_dropWhile_append {inClass : Char → Bool} {text rest : List Char} {c : Char}
    (h : c ∈ ((text ++ rest).dropWhile inClass).head?) :
    c ∈ (text.dropWhile inClass).head? ∨ c ∈ (rest.dropWhile inClass).head? := by
  rw [List.dropWhile_append] at h
  split at h
  · exact .inr h
  · next hne =>
    refine .inl ?_
    rwa [List.head?_append_of_ne_nil _ (by simpa using hne)] at h

namespace Words

/-- What a line starts with does not open an object: an opening brace stands in a comment only. -/
theorem Line.head?_dropWhile (h : Line cells line) {c : Char}
    (hc : c ∈ (line.dropWhile Text.isBlank).head?) : c ≠ '\x7b' := by
  obtain ⟨hspaced, hremark⟩ := h
  rcases Text.head?_dropWhile_append hc with hc | hc
  · exact (hspaced.ne ((List.dropWhile_suffix _).mem (List.mem_of_mem_head? hc))).2.2
  · cases hremark with
    | nil => cases hc
    | comment _ =>
        obtain rfl : ';' = c := Option.some.inj hc
        decide

/-! ## Texts -/

variable {groups : List (List Int)} {lines : List (List Char)}

/-- Each line has its cells. -/
theorem exists_cells (h : List.Forall₂ Line groups lines) {line : List Char}
    (hline : line ∈ lines) : ∃ cells, Line cells line := by
  induction h with
  | nil => cases hline
  | @cons cells first _ _ hfirst _ ih =>
      rcases List.mem_cons.mp hline with rfl | hline
      · exact ⟨cells, hfirst⟩
      · exact ih hline

/-- Nothing but line feeds breaks the lines of a text. -/
theorem Arranged.onlyLineFeeds (h : Arranged cells text) : Text.OnlyLineFeeds text := by
  obtain ⟨groups, hlines, -⟩ := h
  intro c hc hbreak
  by_contra hne
  have hside : ∀ before after : List Char,
      c ∈ before ++ '\n' :: after → c ∈ before ∨ c ∈ after := by
    intro before after hmem
    rw [List.mem_append, List.mem_cons] at hmem
    exact hmem.imp_right fun h => h.resolve_left hne
  obtain ⟨line, hline, hmem⟩ := Text.exists_line hside hc
  obtain ⟨cells, hcells⟩ := exists_cells hlines hline
  rw [hcells.isLineBreak_eq hmem] at hbreak
  cases hbreak

/-- The first character of a text that is not blank is the first one of a line. -/
theorem Arranged.head?_dropWhile (h : Arranged cells text) {c : Char}
    (hc : c ∈ (text.dropWhile Text.isBlank).head?) : c ≠ '\x7b' := by
  obtain ⟨groups, hlines, -⟩ := h
  have hside : ∀ before after : List Char,
      c ∈ ((before ++ '\n' :: after).dropWhile Text.isBlank).head? →
        c ∈ (before.dropWhile Text.isBlank).head? ∨ c ∈ (after.dropWhile Text.isBlank).head? :=
    fun before after hmem => @Text.head?_dropWhile_append _ before ('\n' :: after) c hmem
  obtain ⟨line, hline, hhead⟩ :=
    Text.exists_line (P := fun run => c ∈ (run.dropWhile Text.isBlank).head?) hside hc
  obtain ⟨cells, hcells⟩ := exists_cells hlines hline
  exact hcells.head?_dropWhile hhead

/-- The lines of a text, one after the other, are read as the cells that each of them lists, up to
the first one with a cell of too many digits. -/
theorem readLines_cases (h : List.Forall₂ Line groups lines) (path : String) (number : Nat) :
    ((∀ cell ∈ groups.flatten, Digits.isWritable cell = true) ∧
      Document.readLines path number lines = .ok groups.flatten) ∨
    ((∃ cell ∈ groups.flatten, Digits.isWritable cell = false) ∧
      ∃ fault, Document.readLines path number lines = .error fault ∧
        Overlong path number lines fault) := by
  -- by induction on the lines; the first overlong one is where the reading stops
  induction h generalizing number with
  | nil => exact .inl ⟨nofun, rfl⟩
  | @cons cells line groups _ hline _ ih =>
      rw [Document.readLines, hline.readWords?_eq, List.flatten_cons]
      by_cases hall : ∀ cell ∈ cells, Digits.isWritable cell = true
      · rw [if_pos (List.all_eq_true.mpr hall)]
        rcases ih (number + 1) with ⟨hothers, hread⟩ | ⟨⟨cell, hcell, hlong⟩, fault, hread, hfault⟩
        · exact .inl ⟨List.forall_mem_append.mpr ⟨hall, hothers⟩, by simp only [hread]; rfl⟩
        · obtain ⟨index, later, others, hlater, hothers, hmem, rfl⟩ := hfault
          refine .inr ⟨⟨cell, List.mem_append_right _ hcell, hlong⟩, _, by simp only [hread]; rfl,
            index + 1, later, others, hlater, hothers, hmem, ?_⟩
          -- the number of the line counts from that of the first one
          rw [Nat.add_right_comm, Nat.add_assoc]
      · rw [if_neg (mt List.all_eq_true.mp hall)]
        push Not at hall
        obtain ⟨cell, hcell, hlong⟩ := hall
        have hlong := Bool.eq_false_of_not_eq_true hlong
        exact .inr ⟨⟨cell, List.mem_append_left _ hcell, hlong⟩, _, rfl,
          0, line, cells, rfl, hline, ⟨cell, hcell, hlong⟩, rfl⟩

/-- An empty line at the end lists nothing. -/
theorem readLines_concat_nil (path : String) (number : Nat) (lines : List (List Char)) :
    Document.readLines path number (lines ++ [[]]) = Document.readLines path number lines := by
  induction lines generalizing number with
  | nil => rfl
  | cons line lines ih => rw [List.cons_append, Document.readLines, Document.readLines, ih]

/-- A text that lists cells is read as a list of words, line by line. -/
theorem Arranged.read_eq (h : Arranged cells text) (path : String) :
    Document.read path text =
      (Document.readLines path 1 (text.splitOn '\n')).map fun cells => { cells } := by
  have hopens : ∀ c ∈ (text.dropWhile Text.isBlank).head?, c ≠ '\x7b' := fun c => h.head?_dropWhile
  have hwords : Document.read path text = Document.ofWords path text := by
    rw [Document.read]
    split
    · next rest heq => exact absurd rfl (hopens _ (by rw [heq]; exact Option.mem_some_self _))
    · rfl
  obtain ⟨last, hlast, hsplit⟩ := Text.splitOn_eq_lines h.onlyLineFeeds
  rw [hwords, Document.ofWords, hsplit]
  rcases hlast with rfl | rfl
  · rw [List.append_nil]
    rfl
  · rw [readLines_concat_nil]
    rfl

theorem not_all_of_exists {cells : List Int}
    (hlong : ∃ cell ∈ cells, Digits.isWritable cell = false) :
    ¬ ∀ cell ∈ cells, Digits.isWritable cell = true := by
  obtain ⟨cell, hcell, hlong⟩ := hlong
  intro hall
  rw [hall cell hcell] at hlong
  cases hlong

/-- A text that lists cells is read as them. -/
theorem Arranged.read_of_all (h : Arranged cells text)
    (hall : ∀ cell ∈ cells, Digits.isWritable cell = true) (path : String) :
    Document.read path text = .ok { cells } := by
  rw [h.read_eq]
  obtain ⟨groups, hlines, rfl⟩ := h
  rcases readLines_cases hlines path 1 with ⟨-, hread⟩ | ⟨hlong, -⟩
  · rw [hread]
    rfl
  · exact absurd hall (not_all_of_exists hlong)

/-- A text that lists a cell with too many digits is refused. -/
theorem Arranged.read_of_exists (h : Arranged cells text)
    (hlong : ∃ cell ∈ cells, Digits.isWritable cell = false) (path : String) :
    ∃ fault, Document.read path text = .error fault ∧
      Overlong path 1 (text.splitOn '\n') fault := by
  rw [h.read_eq]
  obtain ⟨groups, hlines, rfl⟩ := h
  rcases readLines_cases hlines path 1 with ⟨hall, -⟩ | ⟨-, fault, hread, hfault⟩
  · exact absurd hall (not_all_of_exists hlong)
  · exact ⟨fault, by rw [hread]; rfl, hfault⟩

/-! ## What is written -/

theorem line_toString (cell : Int) : Line [cell] (toString cell).toList := by
  have hspaced : Spaced [cell] ([] ++ ((toString cell).toList ++ [])) :=
    .cons (by simp) (by simp) (.nil (by simp))
  have hline := Line.mk hspaced .nil
  simpa using hline

theorem toList_unlines_cons (line : String) (lines : List String) :
    (Text.unlines (line :: lines)).toList = line.toList ++ '\n' :: (Text.unlines lines).toList := by
  rw [Text.unlines, List.map_cons, String.join_cons, String.toList_append, String.toList_append,
    List.append_assoc]
  rfl

/-- One numeral to a line lists the cells. -/
theorem arranged_unlines (cells : List Int) :
    Arranged cells (Text.unlines (cells.map fun cell => toString cell)).toList := by
  induction cells with
  | nil =>
      have hempty : Line [] ([] ++ []) := .mk (.nil nofun) .nil
      exact ⟨[[]], .cons hempty .nil, rfl⟩
  | cons cell cells ih =>
      obtain ⟨groups, hlines, rfl⟩ := ih
      -- a numeral has no line break, so it stays on its line
      have hnumeral : ∀ c ∈ (toString cell).toList, (c == '\n') = false := by
        intro c hc
        rw [beq_eq_false_iff_ne]
        rintro rfl
        exact absurd (Numeral.isBlank_of_mem_toString hc) (by decide)
      refine ⟨[cell] :: groups, ?_, rfl⟩
      rw [List.map_cons, toList_unlines_cons, List.splitOn,
        List.splitOnP_append_cons_of_forall_mem hnumeral '\n' rfl]
      exact .cons (line_toString cell) hlines

end Words

namespace Image

/-- An image with an overlong cell is not written. -/
theorem renderWords_of_exists {image : Image}
    (hlong : ∃ cell ∈ image.cells, Digits.isWritable cell = false) :
    image.renderWords = .error .unwritten := by
  refine Digits.writing_eq_error.mpr ⟨Bool.eq_false_of_not_eq_true ?_, rfl⟩
  exact mt List.all_eq_true.mp (Words.not_all_of_exists hlong)

/-- A file that lists the numerals of cells, in whatever arrangement, is loaded as an image with
exactly these cells, and nothing else happens; what is written as words lists the cells of the
image.  The cells have to be such as can be written: a file that lists another one is refused with
the line that does, and an image that has one is not written as words. -/
theorem loadImage_of_words :
    (∀ (cells : List Int) (text : List Char), Words.Arranged cells text →
      ∀ (files : Files) (path : Path), files.read path = .ok (Text.Utf8.encode text) →
        ∀ transcript,
          ((∀ cell ∈ cells, Digits.isWritable cell = true) →
            ((Files.storage.loadImage path).run.run transcript).run files =
              ((.ok { cells }, transcript), files)) ∧
          ((∃ cell ∈ cells, Digits.isWritable cell = false) →
            ∃ fault, Words.Overlong path.render 1 (text.splitOn '\n') fault ∧
              ((Files.storage.loadImage path).run.run transcript).run files =
                ((.error (.document fault), transcript), files))) ∧
    ∀ image : Image,
      ((∀ cell ∈ image.cells, Digits.isWritable cell = true) →
        ∃ text, image.render .words = .ok text ∧ Words.Arranged image.cells text.toList) ∧
      ((∃ cell ∈ image.cells, Digits.isWritable cell = false) →
        image.render .words = .error .unwritten) := by
  refine ⟨?_, fun image => ⟨fun hshort => ?_, fun hlong => ?_⟩⟩
  · intro cells text h files path hread transcript
    have hreturn : '\r' ∉ text := fun hmem => absurd (h.onlyLineFeeds '\r' hmem rfl) (by decide)
    rw [Storage.loadImage, Work.run_bind_of_ok (Storage.readText_of_read hreturn hread transcript)]
    refine ⟨fun hall => Work.run_ofExcept_of_ok (h.read_of_all hall path.render), fun hlong => ?_⟩
    obtain ⟨fault, hdocument, hline⟩ := h.read_of_exists hlong path.render
    refine ⟨fault, hline, ?_⟩
    rw [hdocument]
    rfl
  · exact ⟨_, Digits.writing_eq_ok.mpr ⟨List.all_eq_true.mpr hshort, rfl⟩,
      Words.arranged_unlines image.cells⟩
  · exact renderWords_of_exists hlong

/-- Four lines: a comment with a brace, nothing, two numerals with a comment, and two numerals, of
which one has more digits than a cell holds, without a line feed at the end. -/
def unevenWords : List Char :=
  "\t; \x7bé; 1\n\n 5  -3\t;x\n12345678901234567890\t0".toList

theorem loadImage_of_words_uneven :
    (∀ cell ∈ [5, -3, 12345678901234567890, 0], Digits.isWritable cell = true) ∧
    ∃ files : Files, files.read (Path.ofText "image") = .ok (Text.Utf8.encode unevenWords) ∧
      Words.Arranged [5, -3, 12345678901234567890, 0] unevenWords ∧
      ((Files.storage.loadImage (Path.ofText "image")).run.run {}).run files =
        ((.ok { cells := [5, -3, 12345678901234567890, 0] }, {}), files) := by
  have hread : (Files.empty.add (Path.ofText "image") (Text.Utf8.encode unevenWords)).read
      (Path.ofText "image") = .ok (Text.Utf8.encode unevenWords) := by decide +kernel
  -- each line of the text by itself
  have hremark : Words.Line [] (['\t'] ++ ';' :: [' ', '\x7b', 'é', ';', ' ', '1']) :=
    .mk (.nil (by simp)) (.comment (by simp [Text.isLineBreak]))
  have hblank : Words.Line [] ([] ++ []) := .mk (.nil (by simp)) .nil
  have hpair : Words.Line [5, -3] ([' '] ++ ((toString (5 : Int)).toList ++
      ([' ', ' '] ++ ((toString (-3 : Int)).toList ++ ['\t']))) ++ ';' :: ['x']) :=
    .mk (.cons (by simp) (by simp) (.cons (by simp) (by simp) (.nil (by simp))))
      (.comment (by simp [Text.isLineBreak]))
  have hlarge : Words.Line [12345678901234567890, 0] ([] ++
      ((toString (12345678901234567890 : Int)).toList ++
        (['\t'] ++ ((toString (0 : Int)).toList ++ []))) ++ []) :=
    .mk (.cons (by simp) (by simp) (.cons (by simp) (by simp) (.nil (by simp)))) .nil
  have hlines : List.Forall₂ Words.Line [[], [], [5, -3], [12345678901234567890, 0]]
      (unevenWords.splitOn '\n') := by
    convert List.Forall₂.cons hremark (.cons hblank (.cons hpair (.cons hlarge .nil)))
    decide +kernel
  have harranged : Words.Arranged [5, -3, 12345678901234567890, 0] unevenWords :=
    ⟨_, hlines, rfl⟩
  have hshort : ∀ cell ∈ [5, -3, 12345678901234567890, 0], Digits.isWritable cell = true := by
    decide +kernel
  exact ⟨hshort, _, hread, harranged, (loadImage_of_words.1 _ _ harranged _ _ hread {}).1 hshort⟩

/-- Not every list of cells is loaded from a text that lists it, or written as such a text: the
least number with too many digits is not. -/
theorem read_overlong : ∃ text,
    Words.Arranged [10 ^ Digits.limit] text ∧
    (∀ path, ∃ fault, Document.read path text = .error fault) ∧
    render { cells := [10 ^ Digits.limit] } .words = .error .unwritten := by
  have hlong : ∃ cell ∈ [(10 : Int) ^ Digits.limit], Digits.isWritable cell = false :=
    ⟨_, List.mem_cons_self, Digits.not_isWritable_ten_pow⟩
  have harranged := Words.arranged_unlines [10 ^ Digits.limit]
  refine ⟨_, harranged, fun path => ?_, renderWords_of_exists hlong⟩
  obtain ⟨fault, hread, -⟩ := harranged.read_of_exists hlong path
  exact ⟨fault, hread⟩

end Image

end Subleq
