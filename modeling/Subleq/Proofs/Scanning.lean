import Mathlib
import Subleq.Proofs.Folding
import Subleq.Proofs.Lexemes

/-!
# Tokens and their places

`Token.Cut` cuts a text into words of the lexical grammar and the gaps before them, and gives every
word the line and the column that are counted off from the text before it.

The scanner has no cut to go by.  It walks over the text one character at a time, with the number of
characters that it has still to skip, and a cursor that counts.  `Token.scan_eq_ok` says that what
it finds are the tokens of a cut, and that it finds them wherever there is one.  So scanning loses
nothing of a text and misplaces nothing (`Token.scan_lossless`).  A text without a cut is refused
at the word that stops it (`Token.refused_of_scanFrom`).
-/

namespace Subleq

open Text (Stops)

/-! ## Places -/

/-- The place at the end of a text: its line is one more than there are line feeds, and its column
one more than there are characters after the last of them. -/
def Location.after (file : String) (text : List Char) : Location :=
  ⟨file, text.count '\n' + 1, (text.reverse.takeWhile (· != '\n')).length + 1⟩

/-- A cursor at the end of a text. -/
def Cursor.IsAfter (cursor : Cursor) (text : List Char) : Prop :=
  cursor.line = text.count '\n' + 1 ∧
    cursor.column = (text.reverse.takeWhile (· != '\n')).length + 1

namespace Cursor.IsAfter

variable {cursor : Cursor} {before : List Char}

/-- The cursor gives the place after what it has passed. -/
theorem location_eq (h : cursor.IsAfter before) (file : String) :
    cursor.location file = .after file before := by
  rw [Cursor.location, h.1, h.2, Location.after]
  push_cast
  rfl

/-- It passes one character at a time. -/
theorem advance (h : cursor.IsAfter before) (c : Char) (rest : List Char) :
    (cursor.advance c rest).IsAfter (before ++ [c]) := by
  obtain ⟨hline, hcolumn⟩ := h
  by_cases hc : c = '\n'
  · subst hc
    simp [Cursor.advance, Cursor.IsAfter, hline]
  · simp [Cursor.advance, Cursor.IsAfter, hline, hcolumn, hc]

end Cursor.IsAfter

/-! ## Texts -/

namespace Token

/-- The tokens of a text that stands after the text `before`.  Each of them has its word, a gap
before the word, and the place where the word starts; the last token stands at the end. -/
inductive Cut (file : String) : (before text : List Char) → List Token → Prop
  | done {before gap : List Char} :
      Lexeme.Gap gap [] → Cut file before gap [⟨.endOfInput, .after file (before ++ gap)⟩]
  | token {before gap lexeme rest : List Char} {kind : Kind} {tokens : List Token} :
      Lexeme.Gap gap (lexeme ++ rest) → Lexeme.Spells lexeme kind rest →
      Cut file (before ++ gap ++ lexeme) rest tokens →
      Cut file before (gap ++ (lexeme ++ rest)) (⟨kind, .after file (before ++ gap)⟩ :: tokens)

variable {file : String} {before rest : List Char} {tokens : List Token}

namespace Cut

/-- At the end there is the end of input, and nothing else. -/
theorem finish : Cut file before [] [⟨.endOfInput, .after file before⟩] := by
  have h : Cut file before [] [⟨.endOfInput, .after file (before ++ [])⟩] := .done .nil
  rwa [List.append_nil] at h

/-- A word that is spelled gives its token. -/
theorem word {lexeme : List Char} {kind : Kind} (h : Cut file (before ++ lexeme) rest tokens)
    (hspells : Lexeme.Spells lexeme kind rest) :
    Cut file before (lexeme ++ rest) (⟨kind, .after file before⟩ :: tokens) := by
  rw [← List.append_nil before] at h
  have hword := Cut.token .nil hspells h
  rwa [List.append_nil] at hword

/-- A gap of one character gives none. -/
theorem blank {c : Char} (hc : Char.isGap c = true) (h : Cut file (before ++ [c]) rest tokens) :
    Cut file before (c :: rest) tokens := by
  cases h with
  | @done _ gap hgap =>
      rw [← List.append_cons]
      exact .done (.blank (Lexeme.isGap_iff.mp hc) hgap)
  | @token _ gap lexeme rest kind tokens hgap hspells hcut =>
      rw [← List.append_cons] at hcut ⊢
      exact .token (.blank (Lexeme.isGap_iff.mp hc) hgap) hspells hcut

/-- Neither does a longer one. -/
theorem blanks {gap : List Char} (hgap : ∀ c ∈ gap, Char.isGap c = true)
    (h : Cut file (before ++ gap) rest tokens) : Cut file before (gap ++ rest) tokens := by
  induction gap generalizing before with
  | nil => rwa [List.append_nil] at h
  | cons c gap ih =>
      obtain ⟨hc, hgap⟩ := List.forall_mem_cons.mp hgap
      rw [List.append_cons] at h
      exact (ih hgap h).blank hc

/-- Nor does a comment, up to the end of its line. -/
theorem comment {body : List Char} (hbody : '\n' ∉ body) (hrest : Stops (· != '\n') rest)
    (h : Cut file (before ++ ';' :: body) rest tokens) :
    Cut file before (';' :: body ++ rest) tokens := by
  cases h with
  | @done _ gap hgap =>
      rw [List.append_assoc, List.cons_append]
      exact .done (.comment hbody (by rwa [List.append_nil]) hgap)
  | @token _ gap lexeme rest kind tokens hgap hspells hcut =>
      rw [List.append_assoc before, List.cons_append] at hcut ⊢
      rw [← List.append_assoc, List.cons_append]
      exact .token (.comment hbody hrest hgap) hspells hcut

end Cut

/-- The scanner skips a gap. -/
theorem scanFrom_of_gap {c : Char} {size : Nat} (hread : Lexeme.read c rest = .gap size)
    (cursor : Cursor) :
    scanFrom file 0 cursor (c :: rest) =
      scanFrom file (size - 1) (cursor.advance c rest) rest := by
  rw [scanFrom, hread]

/-- It puts out a token, and skips its characters. -/
theorem scanFrom_of_token {c : Char} {kind : Kind} {size : Nat}
    (hread : Lexeme.read c rest = .token kind size) (cursor : Cursor) :
    scanFrom file 0 cursor (c :: rest) = (do
      let tokens ← scanFrom file (size - 1) (cursor.advance c rest) rest
      .ok (⟨kind, cursor.location file⟩ :: tokens)) := by
  rw [scanFrom, hread]

/-- A run of blanks may be passed over one at a time. -/
theorem scanFrom_blank {c : Char} (hc : Char.isGap c = true) (cursor : Cursor)
    (rest : List Char) :
    scanFrom file 0 cursor (c :: rest) = scanFrom file 0 (cursor.advance c rest) rest := by
  rw [scanFrom_of_gap (Lexeme.read_blank hc rest), Nat.add_sub_cancel_left]
  cases rest with
  | nil => rfl
  | cons d rest =>
      by_cases hd : Char.isGap d = true
      · rw [List.takeWhile_cons_of_pos hd, scanFrom_of_gap (Lexeme.read_blank hd rest),
          Nat.add_sub_cancel_left]
        rfl
      · rw [List.takeWhile_cons_of_neg hd]
        rfl

/-- What is skipped only moves the cursor. -/
theorem exists_cursor (file : String) {cursor : Cursor} (h : cursor.IsAfter before)
    (skipped rest : List Char) :
    ∃ next : Cursor, next.IsAfter (before ++ skipped) ∧
      scanFrom file skipped.length cursor (skipped ++ rest) = scanFrom file 0 next rest := by
  induction skipped generalizing before cursor with
  | nil => exact ⟨cursor, by rwa [List.append_nil], rfl⟩
  | cons c skipped ih =>
      obtain ⟨next, hnext, hscan⟩ := ih (h.advance c (skipped ++ rest))
      exact ⟨next, by rwa [List.append_cons], hscan⟩

/-- Scanning passes over a gap. -/
theorem scanFrom_gap (file : String) {cursor : Cursor} (hcursor : cursor.IsAfter before)
    {gap : List Char} (h : Lexeme.Gap gap rest) :
    ∃ next : Cursor, next.IsAfter (before ++ gap) ∧
      scanFrom file 0 cursor (gap ++ rest) = scanFrom file 0 next rest := by
  -- by induction on the gap, which the scanner passes piece by piece
  induction h generalizing before cursor with
  | nil => exact ⟨cursor, by rwa [List.append_nil], rfl⟩
  | @blank c gap rest hc _ ih =>
      obtain ⟨next, hnext, hscan⟩ := ih (hcursor.advance c (gap ++ rest))
      refine ⟨next, by rwa [List.append_cons], ?_⟩
      rw [List.cons_append, scanFrom_blank (Lexeme.isGap_iff.mpr hc), hscan]
  | @comment body gap rest hbody hrest _ ih =>
      obtain ⟨middle, hmiddle, hskip⟩ :=
        exists_cursor file (hcursor.advance ';' (body ++ (gap ++ rest))) body (gap ++ rest)
      obtain ⟨next, hnext, hscan⟩ := ih hmiddle
      refine ⟨next, ?_, ?_⟩
      · rwa [← List.append_cons, List.append_assoc] at hnext
      · rw [List.cons_append, List.append_assoc, scanFrom_of_gap (Lexeme.read_comment hbody hrest),
          Nat.add_sub_cancel_left, hskip, hscan]

/-- The tokens of a cut are what scanning finds. -/
theorem Cut.scanFrom_eq {text : List Char} (h : Cut file before text tokens) {cursor : Cursor}
    (hcursor : cursor.IsAfter before) : scanFrom file 0 cursor text = .ok tokens := by
  induction h generalizing cursor with
  | @done before gap hgap =>
      obtain ⟨next, hnext, hscan⟩ := scanFrom_gap file hcursor hgap
      rw [List.append_nil] at hscan
      rw [hscan, scanFrom, hnext.location_eq]
  | @token before gap lexeme rest kind tokens hgap hspells _ ih =>
      obtain ⟨c, more, rfl⟩ := List.exists_cons_of_ne_nil hspells.ne_nil
      obtain ⟨start, hstart, hscan⟩ := scanFrom_gap file hcursor hgap
      obtain ⟨next, hnext, hskip⟩ := exists_cursor file (hstart.advance c (more ++ rest)) more rest
      rw [← List.append_cons] at hnext
      rw [hscan, List.cons_append, scanFrom_of_token hspells.read_eq, List.length_cons,
        Nat.add_sub_cancel, hskip, ih hnext, hstart.location_eq]
      rfl

/-- What scanning finds are the tokens of a cut.  The induction is on the text, and skips the
characters of a word that has been read one at a time, as the scanner does. -/
theorem cut_of_scanFrom {text : List Char} {skip : Nat} {cursor : Cursor}
    (hcursor : cursor.IsAfter before) (h : scanFrom file skip cursor text = .ok tokens) :
    Cut file (before ++ text.take skip) (text.drop skip) tokens := by
  -- by induction on the text; what is skipped belongs to a word that has been put out
  induction text generalizing before skip cursor tokens with
  | nil =>
      have hdone : [⟨.endOfInput, cursor.location file⟩] = tokens := by
        cases skip <;> exact Except.ok.inj h
      rw [List.take_nil, List.drop_nil, List.append_nil, ← hdone, hcursor.location_eq]
      exact .finish
  | cons c rest ih =>
      match skip with
      | skip + 1 =>
          have hcut := ih (hcursor.advance c rest) h
          rwa [← List.append_cons] at hcut
      | 0 =>
          rw [List.take_zero, List.append_nil, List.drop_zero]
          -- what is read tells how the text starts
          cases hread : Lexeme.read c rest with
          | gap size =>
              rw [scanFrom_of_gap hread] at h
              have hcut := ih (hcursor.advance c rest) h
              obtain ⟨more, after, rfl, rfl, hblanks | ⟨rfl, hmore, hafter⟩⟩ :=
                Lexeme.gap_of_read hread
              · rw [Nat.add_sub_cancel_left, List.take_left, List.drop_left,
                  ← List.append_cons] at hcut
                exact hcut.blanks hblanks
              · rw [Nat.add_sub_cancel_left, List.take_left, List.drop_left,
                  ← List.append_cons] at hcut
                exact hcut.comment hmore hafter
          | token kind size =>
              rw [scanFrom_of_token hread, Folding.bind_eq_ok] at h
              obtain ⟨others, hothers, hok⟩ := h
              obtain rfl := Except.ok.inj hok
              have hcut := ih (hcursor.advance c rest) hothers
              obtain ⟨lexeme, after, htext, rfl, hspells⟩ := Lexeme.spells_of_read hread
              obtain ⟨d, more, rfl⟩ := List.exists_cons_of_ne_nil hspells.ne_nil
              rw [List.cons_append] at htext
              obtain ⟨rfl, rfl⟩ := List.cons.inj htext
              rw [List.length_cons, Nat.add_sub_cancel, List.take_left, List.drop_left,
                ← List.append_cons] at hcut
              rw [hcursor.location_eq]
              exact hcut.word hspells
          | bad cause seen mark =>
              rw [scanFrom, hread] at h
              cases h
          | overlong digits =>
              rw [scanFrom, hread] at h
              cases h

/-- The tokens of a source text are those of its cut, and there are none if there is no cut. -/
theorem scan_eq_ok {source file : String} {tokens : List Token} :
    scan source file = .ok tokens ↔ Cut file [] source.toList tokens := by
  have hstart : (Cursor.start source.toList).IsAfter [] := ⟨rfl, rfl⟩
  exact ⟨cut_of_scanFrom hstart, fun h => h.scanFrom_eq hstart⟩

/-! ## Refused texts -/

/-- Scanning refuses a text at a word that is none of the grammar, with a diagnostic, or at a number
that has too many digits to be read.  The induction is that of `cut_of_scanFrom`, and the cursor has
gone over all that stands before the word. -/
theorem refused_of_scanFrom {text : List Char} {skip : Nat} {cursor : Cursor} {fault : Fault}
    (h : scanFrom file skip cursor text = .error fault) :
    ∃ earlier c later start, text = earlier ++ c :: later ∧
      start = cursor.advanceOver earlier.length text ∧
      ((∃ cause seen mark, Lexeme.read c later = .bad cause seen mark ∧
          fault = .source
            { cause
              location := some ((start.advanceOver mark (c :: later)).location file)
              sourceLine := some (start.advanceOver seen (c :: later)).currentLine }) ∨
        ∃ size, Lexeme.read c later = .overlong size ∧ fault = .excess (.unread size)) := by
  induction text generalizing skip cursor with
  | nil => cases skip <;> cases h
  | cons c rest ih =>
      match skip with
      | skip + 1 =>
          obtain ⟨earlier, d, later, start, rfl, rfl, hrefused⟩ := ih h
          exact ⟨c :: earlier, d, later, _, rfl, rfl, hrefused⟩
      | 0 =>
          cases hread : Lexeme.read c rest with
          | gap size =>
              rw [scanFrom_of_gap hread] at h
              obtain ⟨earlier, d, later, start, rfl, rfl, hrefused⟩ := ih h
              exact ⟨c :: earlier, d, later, _, rfl, rfl, hrefused⟩
          | token kind size =>
              rw [scanFrom_of_token hread, Folding.bind_eq_error] at h
              obtain hrest | ⟨tokens, -, hok⟩ := h
              · obtain ⟨earlier, d, later, start, rfl, rfl, hrefused⟩ := ih hrest
                exact ⟨c :: earlier, d, later, _, rfl, rfl, hrefused⟩
              · cases hok
          | bad cause seen mark =>
              rw [scanFrom, hread] at h
              exact ⟨[], c, rest, cursor, rfl, rfl,
                .inl ⟨cause, seen, mark, hread, (Except.error.inj h).symm⟩⟩
          | overlong size =>
              rw [scanFrom, hread] at h
              exact ⟨[], c, rest, cursor, rfl, rfl,
                .inr ⟨size, hread, (Except.error.inj h).symm⟩⟩

/-- A word of a text, with the gap before it and the token that it spells. -/
structure Piece where
  gap : List Char
  lexeme : List Char
  kind : Kind
deriving DecidableEq, Repr

/-- The text of pieces, one after the other, and of what stands after the last of them. -/
def joined (pieces : List Piece) (last : List Char) : List Char :=
  pieces.flatMap (fun piece => piece.gap ++ piece.lexeme) ++ last

theorem joined_cons (piece : Piece) (pieces : List Piece) (last : List Char) :
    joined (piece :: pieces) last = piece.gap ++ (piece.lexeme ++ joined pieces last) := by
  simp [joined]

/-- The tokens of a text, which stands after the text `before`, come from its pieces. -/
structure ComeFrom (file : String) (before text : List Char) (tokens : List Token)
    (pieces : List Piece) (last : List Char) : Prop where
  /-- No character is lost, none is there twice, and all stand in their order. -/
  text_eq : text = joined pieces last
  length_eq : tokens.length = pieces.length + 1
  gap {earlier later : List Piece} {piece : Piece} (h : pieces = earlier ++ piece :: later) :
    Lexeme.Gap piece.gap (piece.lexeme ++ joined later last)
  lexeme_ne_nil {earlier later : List Piece} {piece : Piece}
    (h : pieces = earlier ++ piece :: later) : piece.lexeme ≠ []
  spells {earlier later : List Piece} {piece : Piece} (h : pieces = earlier ++ piece :: later) :
    Lexeme.Spells piece.lexeme piece.kind (joined later last)
  /-- The token of a piece is what its word spells, at the place where the word starts. -/
  token_eq {earlier later : List Piece} {piece : Piece} (h : pieces = earlier ++ piece :: later) :
    tokens[earlier.length]? =
      some ⟨piece.kind, .after file (before ++ joined earlier piece.gap)⟩
  last_gap : Lexeme.Gap last []
  end_eq : tokens[pieces.length]? = some ⟨.endOfInput, .after file (before ++ text)⟩

/-- The last gap leaves the end of input. -/
theorem ComeFrom.of_gap {gap : List Char} (hgap : Lexeme.Gap gap []) :
    ComeFrom file before gap [⟨.endOfInput, .after file (before ++ gap)⟩] [] gap where
  text_eq := rfl
  length_eq := rfl
  gap h := absurd h.symm (by simp)
  lexeme_ne_nil h := absurd h.symm (by simp)
  spells h := absurd h.symm (by simp)
  token_eq h := absurd h.symm (by simp)
  last_gap := hgap
  end_eq := rfl

/-- A gap and a word come before the others. -/
theorem ComeFrom.cons {pieces : List Piece} {gap lexeme last : List Char} {kind : Kind}
    (h : ComeFrom file (before ++ gap ++ lexeme) rest tokens pieces last)
    (hgap : Lexeme.Gap gap (lexeme ++ rest)) (hspells : Lexeme.Spells lexeme kind rest) :
    ComeFrom file before (gap ++ (lexeme ++ rest))
      (⟨kind, .after file (before ++ gap)⟩ :: tokens) (⟨gap, lexeme, kind⟩ :: pieces) last := by
  obtain rfl := h.text_eq
  -- A piece is the first one, or it is one of the others.
  have hsplit : ∀ {earlier later other}, ⟨gap, lexeme, kind⟩ :: pieces = earlier ++ other :: later →
      (earlier = [] ∧ other = ⟨gap, lexeme, kind⟩ ∧ later = pieces) ∨
        ∃ more, earlier = ⟨gap, lexeme, kind⟩ :: more ∧ pieces = more ++ other :: later := by
    intro earlier later other hpieces
    cases earlier with
    | nil =>
        obtain ⟨rfl, rfl⟩ := List.cons.inj hpieces
        exact .inl ⟨rfl, rfl, rfl⟩
    | cons first earlier =>
        obtain ⟨rfl, hothers⟩ := List.cons.inj hpieces
        exact .inr ⟨earlier, rfl, hothers⟩
  refine ⟨by rw [joined_cons], congrArg (· + 1) h.length_eq, ?_, ?_, ?_, ?_, h.last_gap, ?_⟩
  · intro earlier later other hpieces
    obtain ⟨rfl, rfl, rfl⟩ | ⟨earlier, rfl, hothers⟩ := hsplit hpieces
    · exact hgap
    · exact h.gap hothers
  · intro earlier later other hpieces
    obtain ⟨rfl, rfl, rfl⟩ | ⟨earlier, rfl, hothers⟩ := hsplit hpieces
    · exact hspells.ne_nil
    · exact h.lexeme_ne_nil hothers
  · intro earlier later other hpieces
    obtain ⟨rfl, rfl, rfl⟩ | ⟨earlier, rfl, hothers⟩ := hsplit hpieces
    · exact hspells
    · exact h.spells hothers
  · intro earlier later other hpieces
    obtain ⟨rfl, rfl, rfl⟩ | ⟨earlier, rfl, hothers⟩ := hsplit hpieces
    · rfl
    · rw [List.length_cons, List.getElem?_cons_succ, h.token_eq hothers, joined_cons]
      simp only [List.append_assoc]
  · rw [List.length_cons, List.getElem?_cons_succ, h.end_eq]
    simp only [List.append_assoc]

/-- Scanning loses nothing of a text and misplaces nothing.  The text is made of pieces, as many as
there are tokens before the one that ends it, and of a last gap.  Each piece is a gap of blanks and
comments and a word of the grammar; its token is what the word spells, at the line and the column
that are counted off from the text before the word.  The last token stands at the end of the
text. -/
theorem scan_lossless {source file : String} {tokens : List Token}
    (h : scan source file = .ok tokens) :
    ∃ (pieces : List Piece) (last : List Char),
      ComeFrom file [] source.toList tokens pieces last := by
  have hcut := scan_eq_ok.mp h
  generalize source.toList = text at hcut ⊢
  generalize ([] : List Char) = before at hcut ⊢
  clear h
  induction hcut with
  | @done before gap hgap => exact ⟨[], gap, .of_gap hgap⟩
  | @token before gap lexeme rest kind tokens hgap hspells _ ih =>
      obtain ⟨pieces, last, hpieces⟩ := ih
      exact ⟨⟨gap, lexeme, kind⟩ :: pieces, last, hpieces.cons hgap hspells⟩

/-- A label, a number in base sixteen, an escaped quote, a string over two lines, a comment, and
dollar signs with and without the letter of a temp field. -/
def specimen : String := "a:\tdb 0x1F, '\\'', \"\\x41\\\n\" ; b\r\n$t $to"

def specimenTokens : List Token :=
  [⟨.identifier "a", ⟨"f", 1, 1⟩⟩, ⟨.mark .colon, ⟨"f", 1, 2⟩⟩, ⟨.identifier "db", ⟨"f", 1, 4⟩⟩,
    ⟨.number 31, ⟨"f", 1, 7⟩⟩, ⟨.mark .comma, ⟨"f", 1, 11⟩⟩, ⟨.number 39, ⟨"f", 1, 13⟩⟩,
    ⟨.mark .comma, ⟨"f", 1, 17⟩⟩, ⟨.string "A\n", ⟨"f", 1, 19⟩⟩, ⟨.newline, ⟨"f", 2, 7⟩⟩,
    ⟨.temp .t, ⟨"f", 3, 1⟩⟩, ⟨.mark .dollar, ⟨"f", 3, 4⟩⟩, ⟨.identifier "to", ⟨"f", 3, 5⟩⟩,
    ⟨.endOfInput, ⟨"f", 3, 7⟩⟩]

theorem scan_lossless_specimen :
    scan specimen "f" = .ok specimenTokens ∧
      ∃ (pieces : List Piece) (last : List Char),
        ComeFrom "f" [] specimen.toList specimenTokens pieces last := by
  have hscan : scan specimen "f" = .ok specimenTokens := by rfl
  exact ⟨hscan, scan_lossless hscan⟩

end Token

end Subleq
