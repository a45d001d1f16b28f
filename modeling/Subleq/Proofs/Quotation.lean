import Subleq.Proofs.LineGrammar
import Subleq.Proofs.Lines
import Subleq.Proofs.Refusal
import Subleq.Proofs.Scanning

/-!
# The lines that diagnostics quote

A diagnostic has the place of its reason, and may quote a line of the source.  The scanner quotes
the line on which its cursor stands; everything after it leaves the quotation to `Assembly.run`,
which cuts the source into lines at all line boundaries and takes the one with the number of the
place.

Lines are numbered by line feeds, so both ways can go wrong (`Assembly.quoted_line`).  A string that
is not closed is reported at its opening quote, while the cursor stands where the string breaks off,
which is some lines below if line feeds in the string are escaped.  And a line boundary that is no
line feed shifts the lines after it.  Where neither comes up, the line that is quoted is the one of
the place.
-/

namespace Subleq

/-! ## Refused lexemes -/

namespace Lexeme

/-- What is refused is refused at the last character that was looked at. -/
def MarksEnd : Lexeme → Prop
  | bad _ seen mark => mark = seen
  | gap _ | token _ _ | overlong _ => True

/-- A decimal number is refused at its end. -/
theorem marksEnd_readDecimal (text : List Char) : (readDecimal text).MarksEnd := by
  have hdigits : ∀ digits, (ofDecimal digits).MarksEnd := by
    intro digits
    unfold ofDecimal
    split <;> trivial
  simp only [readDecimal, badHere]
  split
  · split_ifs
    · rfl
    · exact hdigits _
  · exact hdigits _

/-- A number with a prefix is refused at its end. -/
theorem marksEnd_readBased (base : Nat) (text : List Char) : (readBased base text).MarksEnd := by
  simp only [readBased, badHere]
  split_ifs
  · rfl
  · split
    · split_ifs
      · rfl
      · trivial
    · trivial

/-- So is every number. -/
theorem marksEnd_readNumber (first : Char) (rest : List Char) :
    (readNumber first rest).MarksEnd := by
  unfold readNumber
  split
  · split
    · exact marksEnd_readBased _ _
    · exact marksEnd_readDecimal _
  · exact marksEnd_readDecimal _

/-- What starts with a dollar sign is not refused. -/
theorem marksEnd_readDollar (rest : List Char) : (readDollar rest).MarksEnd := by
  unfold readDollar
  split
  · split
    · split_ifs
      · trivial
      · trivial
    · trivial
  · trivial

/-- A character is refused at its end. -/
theorem marksEnd_readCharacter (rest : List Char) : (readCharacter rest).MarksEnd := by
  -- what is missing is the closing quote, which is looked for at the end
  have hclose : ∀ c seen text, (closeCharacter c seen text).MarksEnd := by
    intro c seen text
    unfold closeCharacter
    split
    · trivial
    · rfl
  unfold readCharacter
  split
  · rfl
  · split_ifs
    · rfl
    · split
      · exact hclose _ _ _
      · rfl
    · exact hclose _ _ _

/-- A mark is refused as far as it has been read. -/
theorem marksEnd_readMark (c : Char) (rest : List Char) : (readMark c rest).MarksEnd := by
  unfold readMark
  split
  · trivial
  · trivial
  · split
    · trivial
    · rfl

/-- Strings are the only lexemes that are not refused where the reading stopped. -/
theorem marksEnd_read {c : Char} (hquote : c ≠ '"') (rest : List Char) :
    (read c rest).MarksEnd := by
  unfold read
  split_ifs with _ _ _ _ _ _ h
  · trivial
  · trivial
  · trivial
  · trivial
  · exact marksEnd_readNumber _ _
  · exact marksEnd_readDollar _
  · exact absurd (eq_of_beq h) hquote
  · exact marksEnd_readCharacter _
  · exact marksEnd_readMark _ _

/-- A string that is not closed breaks off after a part that it could have. -/
theorem quotes_of_readString_bad {skip seen size mark : Nat} {chars text : List Char}
    {cause : Cause} (hskip : skip ≤ text.length)
    (h : readString skip seen chars text = .bad cause size mark) :
    mark = size ∨ cause = .unterminatedString ∧ mark = 0 ∧ ∃ body value rest,
      text.drop skip = body ++ rest ∧ Quotes body value ∧ size = seen + skip + body.length := by
  -- by induction on the text; only a string that is not closed is reported at its start
  induction text generalizing skip seen chars with
  | nil =>
      obtain rfl : skip = 0 := Nat.le_zero.mp hskip
      cases h
      exact .inr ⟨rfl, rfl, [], [], [], rfl, .nil, rfl⟩
  | cons c text ih =>
      match skip with
      | skip + 1 =>
          rcases ih (Nat.le_of_succ_le_succ hskip) h with hmark | ⟨hcause, hmark, body, value, rest,
            htext, hbody, hsize⟩
          · exact .inl hmark
          · exact .inr ⟨hcause, hmark, body, value, rest, htext, hbody, by omega⟩
      | 0 =>
          rw [readString] at h
          by_cases hquote : c = '"'
          · rw [if_pos (beq_iff_eq.mpr hquote)] at h
            cases h
          rw [if_neg (by simpa using hquote)] at h
          by_cases hline : c = '\n'
          · rw [if_pos (beq_iff_eq.mpr hline)] at h
            cases h
            exact .inr ⟨rfl, rfl, [], [], c :: text, rfl, .nil, rfl⟩
          rw [if_neg (by simpa using hline)] at h
          by_cases hslash : c = '\\'
          · rw [if_pos (beq_iff_eq.mpr hslash)] at h
            cases hread : Escape.read text with
            | bad cause more =>
                rw [hread] at h
                cases h
                exact .inl rfl
            | char e count =>
                rw [hread] at h
                obtain ⟨escape, after, rfl, rfl, hescape⟩ := Escape.spells_of_read hread
                rcases ih (by simp) h with hmark | ⟨hcause, hmark, body, value, rest, htext, hbody,
                  hsize⟩
                · exact .inl hmark
                rw [List.drop_left] at htext
                subst htext
                refine .inr ⟨hcause, hmark, '\\' :: (escape ++ body), e :: value, rest, ?_,
                  .escape (hescape.before ?_) hbody, ?_⟩
                · rw [hslash, List.drop_zero, List.cons_append, List.append_assoc]
                -- an escape sequence of one digit would take one more, but a quote is none
                · cases body with
                  | nil => exact fun _ => Text.stops_cons.mpr (by decide)
                  | cons d body => simp
                · rw [hsize, List.length_cons, List.length_append]
                  omega
          · rw [if_neg (by simpa using hslash)] at h
            rcases ih (Nat.zero_le _) h with hmark | ⟨hcause, hmark, body, value, rest, htext,
              hbody, hsize⟩
            · exact .inl hmark
            refine .inr ⟨hcause, hmark, c :: body, c :: value, rest, ?_,
              .plain hquote hline hslash hbody, ?_⟩
            · rw [List.drop_zero, List.cons_append, ← htext, List.drop_zero]
            · rw [hsize, List.length_cons]
              omega

/-- A lexeme is refused where its reading stopped, or it is a string that is not closed and is
refused at its start. -/
theorem read_eq_bad {c : Char} {rest : List Char} {cause : Cause} {seen mark : Nat}
    (h : read c rest = .bad cause seen mark) :
    mark = seen ∨ cause = .unterminatedString ∧ mark = 0 ∧ ∃ body value after,
      c :: rest = '"' :: body ++ after ∧ Quotes body value ∧ seen = ('"' :: body).length := by
  by_cases hquote : c = '"'
  · subst hquote
    replace h : readString 0 1 [] rest = .bad cause seen mark := h
    rcases quotes_of_readString_bad (Nat.zero_le _) h with hmark | ⟨hcause, hmark, body, value,
      after, hrest, hbody, hseen⟩
    · exact .inl hmark
    · refine .inr ⟨hcause, hmark, body, value, after, ?_, hbody, ?_⟩
      · rw [List.cons_append, ← hrest, List.drop_zero]
      · rw [hseen, List.length_cons]
        omega
  · have hmarks := marksEnd_read hquote rest
    rw [h] at hmarks
    exact .inl hmarks

/-- A line feed in a string is escaped. -/
theorem Quotes.escaped {body value : List Char} (h : Quotes body value) (hmem : '\n' ∈ body) :
    ['\\', '\n'] <:+: body := by
  induction h with
  | nil => cases hmem
  | @plain c body text _ hline _ _ ih =>
      rcases List.mem_cons.mp hmem with heq | hmem
      · exact absurd heq.symm hline
      · exact (ih hmem).trans (List.suffix_cons c body).isInfix
  | @escape escape body text c hescape _ ih =>
      rw [List.mem_cons, List.mem_append] at hmem
      rcases hmem with heq | hmem | hmem
      · cases heq
      -- an escape sequence that holds a line feed is the line feed itself
      · have hnewline : escape = ['\n'] := by
          cases hescape with
          | letter hletter =>
              obtain rfl := List.mem_singleton.mp hmem
              simp [Escape.named] at hletter
          | other _ _ => rw [List.mem_singleton.mp hmem]
          | digit hd _ =>
              obtain rfl : '\n' = _ := by simpa using hmem
              exact absurd hd (by decide)
          | digits hd he =>
              obtain rfl | rfl : '\n' = _ ∨ '\n' = _ := by simpa using hmem
              · exact absurd hd (by decide)
              · exact absurd he (by decide)
        rw [hnewline]
        exact ⟨[], body, rfl⟩
      · refine (ih hmem).trans ⟨'\\' :: escape, [], ?_⟩
        simp

end Lexeme

/-! ## The scanner -/

/-- A cursor in a text after the part `before`, which quotes the line that it stands on. -/
structure Cursor.OnLine (text : List Char) (cursor : Cursor) (before : List Char) : Prop where
  isAfter : cursor.IsAfter before
  quotes : (text.splitOn '\n')[before.count '\n']? =
    some (cursor.lineText.takeWhile (· != '\n'))

namespace Cursor.OnLine

variable {text before rest : List Char} {cursor : Cursor} {c : Char}

/-- The cursor starts on the first line. -/
theorem start (text : List Char) : OnLine text (Cursor.start text) [] :=
  ⟨⟨rfl, rfl⟩, Text.head?_splitOn text⟩

/-- One character further on, the cursor is on the line of what follows. -/
theorem advance (h : OnLine text cursor before) (htext : text = before ++ c :: rest) :
    OnLine text (cursor.advance c rest) (before ++ [c]) := by
  refine ⟨h.isAfter.advance c rest, ?_⟩
  by_cases hc : c = '\n'
  · subst hc
    rw [htext]
    exact Text.getElem?_splitOn_newline before rest
  · have hcount : (before ++ [c]).count '\n' = before.count '\n' := by
      rw [List.count_append, List.count_singleton, if_neg (by simpa using hc), Nat.add_zero]
    rw [Cursor.advance, if_neg (by simpa using hc), hcount]
    exact h.quotes

/-- So it is any number of characters further on. -/
theorem advanceOver (h : OnLine text cursor before) (htext : text = before ++ rest) (count : Nat) :
    OnLine text (cursor.advanceOver count rest) (before ++ rest.take count) := by
  induction rest generalizing count cursor before with
  | nil =>
      rw [List.take_nil, List.append_nil]
      cases count <;> exact h
  | cons c rest ih =>
      cases count with
      | zero =>
          rw [List.take_zero, List.append_nil]
          exact h
      | succ count =>
          rw [List.take_succ_cons, List.append_cons]
          exact ih (h.advance htext) (by rw [htext, List.append_cons]) count

end Cursor.OnLine

namespace Token

/-- What a scanner that refuses a source quotes: the line of the place that it points at; but for a
string that is not closed, the line on which that breaks off. -/
theorem scan_eq_error {source file : String} {d : Diagnostic}
    (h : scan source file = .error (.source d)) :
    ∃ before inside after line, source.toList = before ++ inside ++ after ∧
      d.location = some (.after file before) ∧ d.sourceLine = some (String.ofList line) ∧
      (source.toList.splitOn '\n')[(before ++ inside).count '\n']? = some line ∧
      (inside = [] ∨ d.cause = .unterminatedString ∧
        ∃ body value, inside = '"' :: body ∧ Lexeme.Quotes body value) := by
  obtain ⟨before, c, rest, start, htext, hstart,
    ⟨cause, seen, mark, hread, hfault⟩ | ⟨_, -, hfault⟩⟩ := refused_of_scanFrom h
  rotate_left
  · cases hfault
  -- The cursor stands on the line that the place is counted off on, before the word and after it.
  have honLine : Cursor.OnLine source.toList start before := by
    have hfirst := (Cursor.OnLine.start source.toList).advanceOver (List.nil_append _).symm
      before.length
    rwa [← hstart, htext, List.take_left, List.nil_append, ← htext] at hfirst
  obtain rfl := Fault.source.inj hfault
  have hlocation := congrArg some ((honLine.advanceOver htext mark).isAfter.location_eq file)
  have hquotes := (honLine.advanceOver htext seen).quotes
  rcases Lexeme.read_eq_bad hread with rfl | ⟨hcause, rfl, body, value, after, hrest, hbody, rfl⟩
  · refine ⟨before ++ (c :: rest).take mark, [], (c :: rest).drop mark, _, ?_, hlocation, rfl, ?_,
      .inl rfl⟩
    · rw [List.append_nil, List.append_assoc, List.take_append_drop, htext]
    · rwa [List.append_nil]
  · have hseen : (c :: rest).take ('"' :: body).length = '"' :: body := by
      rw [hrest, List.take_left]
    rw [hseen] at hquotes
    rw [List.take_zero, List.append_nil] at hlocation
    refine ⟨before, '"' :: body, after, _, ?_, hlocation, rfl, hquotes,
      .inr ⟨hcause, body, value, rfl, hbody⟩⟩
    rw [htext, hrest, List.append_assoc]

end Token

/-! ## Quotations -/

namespace Assembly

variable {config : Config} {defines : Defines} {source file : String} {d : Diagnostic}

/-- Quoting a line does not change the place. -/
theorem location_quoteSource (source file : String) (d : Diagnostic) :
    (quoteSource source file d).location = d.location := by
  unfold quoteSource
  split
  · split
    · split
      · rfl
      · rfl
    · rfl
  · rfl

/-- A line that has been quoted already is left alone. -/
theorem quoteSource_of_some {line : String} (h : d.sourceLine = some line) :
    quoteSource source file d = d := by
  rw [quoteSource, h]

/-- A line that was not quoted before is the one with the number of the place, among the lines at
all line boundaries. -/
theorem line_of_quoteSource {line : String} (hnone : d.sourceLine = none)
    (h : (quoteSource source file d).sourceLine = some line) :
    ∃ location, d.location = some location ∧ location.file = file ∧ 1 ≤ location.line ∧
      (Text.lines source.toList)[location.line.toNat - 1]? = some line.toList := by
  rw [quoteSource, hnone] at h
  -- a line is quoted if the place is in the file and the file has that line
  cases hlocation : d.location with
  | none =>
      rw [hlocation] at h
      simp [hnone] at h
  | some location =>
      rw [hlocation] at h
      simp only at h
      split at h
      · next hplace =>
        refine ⟨location, rfl, hplace.1, hplace.2, ?_⟩
        split at h
        · next chars hchars =>
          obtain rfl : String.ofList chars = line := Option.some.inj h
          rw [hchars, String.toList_ofList]
        · rw [hnone] at h
          cases h
      · rw [hnone] at h
        cases h

/-- Cells that are too narrow are refused at once, and not for the sake of the program. -/
theorem ofStatements_ne_source {statements : List Statement} {reports last : List Progress}
    (hbits : config.cellBits < 2) :
    (ofStatements config defines statements).run reports ≠ (.error (.source d), last) := by
  have harith : arithmetic config = .error (.narrowCell config.cellBits) := by
    unfold arithmetic Width.ofInt?
    rw [dif_neg (by omega)]
  rw [ofStatements, harith]
  intro h
  cases h

/-- What refuses a source after it has been scanned quotes no line. -/
theorem sourceLine_of_scan {tokens : List Token} {reports last : List Progress}
    (hscan : Token.scan source file = .ok tokens)
    (h : (ofSource config defines source file).run reports = (.error (.source d), last)) :
    d.sourceLine = none := by
  rcases ofSource_eq_error h with hparse | ⟨statements, reports, last, hparse, hrun⟩
  · rw [Statement.parse, hscan] at hparse
    obtain ⟨d', hread, heq⟩ := Folding.ofReading_eq_error.mp hparse
    obtain rfl := Fault.eq_of_ofDiagnostic heq.symm
    exact ((Statement.reads_ofTokens tokens).syntactic d' hread).2
  · by_cases hbits : 2 ≤ config.cellBits
    · obtain ⟨cause, location, heq⟩ | ⟨-, heq⟩ :=
        (confined_ofStatements hparse hbits reports).allowed hrun
      · rw [Fault.source.inj heq]
        rfl
      · cases heq
    · exact absurd hrun (ofStatements_ne_source (by omega))

/-- The scanner quotes the line of its place; but for a string that is not closed it is the line
below that by the number of line feeds, all of them escaped, in what there is of the string. -/
def QuotedByScanner (source file : String) (d : Diagnostic) (location : Location) (line : String) :
    Prop :=
  Token.scan source file = .error (.source d) ∧
    ∃ before inside after, source.toList = before ++ inside ++ after ∧
      location = .after file before ∧
      (source.toList.splitOn '\n')[location.line.toNat - 1 + inside.count '\n']? =
        some line.toList ∧
      (inside = [] ∨ d.cause = .unterminatedString ∧
        ∃ body value, inside = '"' :: body ∧ Lexeme.Quotes body value)

/-- A source that has been scanned is cut at all line boundaries for a quotation. -/
def QuotedAfterScanner (source file : String) (location : Location) (line : String) : Prop :=
  (∃ tokens, Token.scan source file = .ok tokens) ∧
    (Text.lines source.toList)[location.line.toNat - 1]? = some line.toList

/-- What the scanner refuses names the file and a line, and quotes what the cursor was on. -/
theorem quotedByScanner_of_scan {location : Location} {line : String}
    (hscan : Token.scan source file = .error (.source d)) (hlocation : d.location = some location)
    (hline : d.sourceLine = some line) :
    location.file = file ∧ 1 ≤ location.line ∧ QuotedByScanner source file d location line := by
  obtain ⟨before, inside, after, chars, hsource, hplace, hchars, hquotes, hinside⟩ :=
    Token.scan_eq_error hscan
  obtain rfl : Location.after file before = location :=
    Option.some.inj (hplace.symm.trans hlocation)
  obtain rfl : String.ofList chars = line := Option.some.inj (hchars.symm.trans hline)
  -- the line of the place and the lines inside of the word add up
  have hindex : (Location.after file before).line.toNat - 1 + inside.count '\n' =
      (before ++ inside).count '\n' := by
    rw [List.count_append]
    simp only [Location.after]
    omega
  refine ⟨rfl, ?_, hscan, before, inside, after, hsource, rfl, ?_, hinside⟩
  · simp only [Location.after]
    omega
  · rw [hindex, hquotes, String.toList_ofList]

/-- Without escaped line feeds it is the line of the place. -/
theorem QuotedByScanner.line_eq {location : Location} {line : String}
    (h : QuotedByScanner source file d location line)
    (hescaped : ¬ ['\\', '\n'] <:+: source.toList) :
    (source.toList.splitOn '\n')[location.line.toNat - 1]? = some line.toList := by
  obtain ⟨-, before, inside, after, hsource, -, hquotes, hinside⟩ := h
  have hcount : inside.count '\n' = 0 := by
    rw [List.count_eq_zero]
    intro hmem
    rcases hinside with rfl | ⟨-, body, value, rfl, hbody⟩
    · cases hmem
    · have hbodyMem : '\n' ∈ body := by simpa using hmem
      refine hescaped ((hbody.escaped hbodyMem).trans ⟨before ++ ['"'], after, ?_⟩)
      rw [hsource]
      simp
  rwa [hcount, Nat.add_zero] at hquotes

/-- Without other line boundaries than line feeds it is the line of the place. -/
theorem QuotedAfterScanner.line_eq {location : Location} {line : String}
    (h : QuotedAfterScanner source file location line)
    (hfeeds : Text.OnlyLineFeeds source.toList) :
    (source.toList.splitOn '\n')[location.line.toNat - 1]? = some line.toList := by
  obtain ⟨last, -, hlines⟩ := Text.splitOn_eq_lines hfeeds
  obtain ⟨hindex, -⟩ := List.getElem?_eq_some_iff.mp h.2
  rw [hlines, List.getElem?_append_left hindex, h.2]

/-- A line that a refusal quotes comes from the scanner or from the lines of the source, and it is
the line of the place if line feeds are the only line boundaries of the source and none of them
follows a backslash. -/
theorem quoted_line {location : Location} {line : String}
    (h : assemble config defines source file = .error (.source d))
    (hlocation : d.location = some location) (hline : d.sourceLine = some line) :
    location.file = file ∧ 1 ≤ location.line ∧
      (QuotedByScanner source file d location line ∨
        QuotedAfterScanner source file location line) ∧
      (Text.OnlyLineFeeds source.toList → ¬ ['\\', '\n'] <:+: source.toList →
        (source.toList.splitOn '\n')[location.line.toNat - 1]? = some line.toList) := by
  obtain ⟨found, reports, hrun, hquoted⟩ := assemble_eq_error.mp h
  -- only what the source is refused for is quoted
  obtain ⟨d', rfl, rfl⟩ : ∃ d', found = .source d' ∧ quoteSource source file d' = d := by
    cases found with
    | source d' => exact ⟨d', rfl, Fault.source.inj hquoted⟩
    | excess _ | narrowCell _ | noPoolSlot _ | noDefinition _ => cases hquoted
  rw [location_quoteSource] at hlocation
  -- the scanner quotes on its own; everything after it leaves that to the assembler
  cases hscan : Token.scan source file with
  | error refusal =>
      obtain rfl : refusal = .source d' := by
        rcases ofSource_eq_error hrun with hparse | ⟨statements, _, _, hparse, -⟩
        · rw [Statement.parse, hscan] at hparse
          exact Except.error.inj hparse
        · rw [Statement.parse, hscan] at hparse
          cases hparse
      obtain ⟨_, _, _, _, -, -, hsome, -⟩ := Token.scan_eq_error hscan
      rw [quoteSource_of_some hsome] at hline ⊢
      obtain ⟨hfile, hnumber, hscanner⟩ := quotedByScanner_of_scan hscan hlocation hline
      exact ⟨hfile, hnumber, .inl hscanner, fun _ hescaped => hscanner.line_eq hescaped⟩
  | ok tokens =>
      obtain ⟨place, hplace, hfile, hnumber, hlines⟩ :=
        line_of_quoteSource (sourceLine_of_scan hscan hrun) hline
      obtain rfl := Option.some.inj (hplace.symm.trans hlocation)
      have hafter : QuotedAfterScanner source file place line := ⟨⟨tokens, hscan⟩, hlines⟩
      exact ⟨hfile, hnumber, .inr hafter, fun hfeeds _ => hafter.line_eq hfeeds⟩

/-- A comment with a form feed, before a line that is refused. -/
def shiftedSource : String := "; a\x0cb\nfoo 1\n"

/-- A string that goes on after an escaped line feed, and is not closed. -/
def openSource : String := "db \"ab\\\ncd\n"

theorem quoted_line_open :
    ∃ d location line, assemble {} [] openSource "open" = .error (.source d) ∧
      d.location = some location ∧ d.sourceLine = some line ∧ location.file = "open" ∧
      1 ≤ location.line ∧
      (QuotedByScanner openSource "open" d location line ∨
        QuotedAfterScanner openSource "open" location line) ∧
      (Text.OnlyLineFeeds openSource.toList → ¬ ['\\', '\n'] <:+: openSource.toList →
        (openSource.toList.splitOn '\n')[location.line.toNat - 1]? = some line.toList) := by
  have hrefused : assemble {} [] openSource "open" =
      .error (.source ⟨.unterminatedString, some ⟨"open", 1, 4⟩, some "cd"⟩) := by decide +kernel
  exact ⟨_, ⟨"open", 1, 4⟩, "cd", hrefused, rfl, rfl, quoted_line hrefused rfl rfl⟩

/-- Neither refusal quotes the line of its place. -/
theorem quoted_line_fails :
    ('\r' ∉ shiftedSource.toList ∧
      assemble {} [] shiftedSource "shifted" =
        .error (.source ⟨.unknownMnemonic "foo", some ⟨"shifted", 2, 1⟩, some "b"⟩) ∧
      (shiftedSource.toList.splitOn '\n')[1]? = some "foo 1".toList) ∧
    '\r' ∉ openSource.toList ∧
      assemble {} [] openSource "open" =
        .error (.source ⟨.unterminatedString, some ⟨"open", 1, 4⟩, some "cd"⟩) ∧
      (openSource.toList.splitOn '\n')[0]? = some "db \"ab\\".toList := by
  decide +kernel

end Assembly

end Subleq
