import Mathlib
import Subleq.Token.Scanner

/-!
# The lexical grammar

`Lexeme.Spells lexeme kind rest` says that the characters of `lexeme`, before the text `rest`, are
the token `kind`, form by form.  What follows a word belongs to its form: a name or a number ends
where no character of a name follows, and `$t` is a temp field only there.

The reader cuts words off the head of a text by their length.  Each of its parts is compared with
the grammar in both directions, and from these it follows that the words of the grammar are read
(`Spells.read_eq`) and that what is read as a token is a word of the grammar (`spells_of_read`).
Digits are compared through the positional value of Mathlib, not through the one of the reader.
-/

namespace Subleq

/-! ## Runs of characters -/

namespace Text

/-- A text that does not go on with a character of a class. -/
def Stops (inClass : Char → Bool) (rest : List Char) : Prop := ∀ c ∈ rest.head?, inClass c = false

variable {inClass : Char → Bool}

@[simp]
theorem stops_nil : Stops inClass [] := nofun

/-- A class ends at a character that is not in it. -/
@[simp]
theorem stops_cons {c : Char} {rest : List Char} :
    Stops inClass (c :: rest) ↔ inClass c = false := by
  simp [Stops]

/-- Where a larger class ends, so does a smaller one. -/
theorem Stops.of_imp {larger : Char → Bool} {rest : List Char} (h : Stops larger rest)
    (himp : ∀ c, inClass c = true → larger c = true) : Stops inClass rest := by
  intro c hc
  rw [← Bool.not_eq_true]
  exact fun hclass => Bool.eq_false_iff.mp (h c hc) (himp c hclass)

/-- A run is taken up to where its class ends. -/
theorem takeWhile_append_of_stops {run rest : List Char} (hrun : ∀ c ∈ run, inClass c = true)
    (hrest : Stops inClass rest) : (run ++ rest).takeWhile inClass = run := by
  rw [List.takeWhile_append_of_pos hrun]
  cases rest with
  | nil => simp
  | cons c rest => simp [stops_cons.mp hrest]

/-- Every text starts with a longest run of characters of a class. -/
theorem exists_run (inClass : Char → Bool) (text : List Char) :
    ∃ run rest, text = run ++ rest ∧ (∀ c ∈ run, inClass c = true) ∧ Stops inClass rest := by
  refine ⟨text.takeWhile inClass, text.dropWhile inClass, List.takeWhile_append_dropWhile.symm,
    fun c hc => List.mem_takeWhile_imp hc, ?_⟩
  have hhead := List.head?_dropWhile_not inClass text
  intro c hc
  rw [Option.mem_def.mp hc] at hhead
  exact hhead

/-- The number that digits stand for in a base: the last digit counts its value, and each of the
others a power of the base more. -/
def positional (base : Nat) (digits : List Char) : Nat :=
  Nat.ofDigits base ((digits.map fun c => (digitIn? base c).getD 0).reverse)

/-- The value of digits is the positional one. -/
theorem digitsValue_eq_positional (base : Nat) (digits : List Char) :
    digitsValue base digits = positional base digits := by
  induction digits using List.reverseRecOn with
  | nil => rfl
  | append_singleton digits c ih =>
      rw [digitsValue, List.foldl_append, ← digitsValue, ih, positional, positional,
        List.map_append, List.reverse_append, List.map_singleton, List.reverse_singleton,
        List.singleton_append, Nat.ofDigits_cons, List.foldl_cons, List.foldl_nil]
      ring

/-- The digits of every base are among the characters of names. -/
theorem continuesName_of_isDigitIn {base : Nat} {c : Char} (h : isDigitIn base c = true) :
    Char.continuesName c = true := by
  have hrange : ∀ {low high : Char}, low ≤ c ∧ c ≤ high → low.val ≤ c.val ∧ c.val ≤ high.val :=
    fun hc => ⟨Char.le_def.mp hc.1, Char.le_def.mp hc.2⟩
  rw [isDigitIn, digitIn?] at h
  rw [Char.continuesName, Char.startsName, Char.isAlpha]
  -- digits of any base are digits or letters of ASCII
  by_cases hdigit : '0' ≤ c ∧ c ≤ '9'
  · have hisDigit : c.isDigit = true := by simpa [Char.isDigit] using hrange hdigit
    rw [hisDigit, Bool.or_true]
  by_cases hlower : 'a' ≤ c ∧ c ≤ 'f'
  · have hisLower : c.isLower = true := by
      simpa [Char.isLower] using
        And.imp_right (fun hle => UInt32.le_trans hle (by decide)) (hrange hlower)
    simp [hisLower]
  by_cases hupper : 'A' ≤ c ∧ c ≤ 'F'
  · have hisUpper : c.isUpper = true := by
      simpa [Char.isUpper] using
        And.imp_right (fun hle => UInt32.le_trans hle (by decide)) (hrange hupper)
    simp [hisUpper]
  · rw [if_neg hdigit, if_neg hlower, if_neg hupper, if_neg (lt_irrefl base)] at h
    cases h

end Text

open Text (Stops)

/-! ## The lexical grammar -/

namespace Escape

/-- The letters that stand for another character, or for a quote or a backslash. -/
def named : List (Char × Char) :=
  [('n', '\n'), ('r', '\r'), ('t', '\t'), ('0', Char.ofNat 0), ('\\', '\\'), ('"', '"'),
    ('\'', '\'')]

/-- What follows a backslash, before the text `rest`, stands for a character: a letter of the table,
`x` with as many hexadecimal digits as there are but two at most, or any other character, which
stands for itself. -/
inductive Spells : (escape : List Char) → Char → (rest : List Char) → Prop
  | letter {letter c : Char} {rest : List Char} : (letter, c) ∈ named → Spells [letter] c rest
  | other {c : Char} {rest : List Char} :
      c ∉ named.map Prod.fst → c ≠ 'x' → Spells [c] c rest
  | digit {d : Char} {rest : List Char} :
      Text.isDigitIn 16 d = true → Stops (Text.isDigitIn 16) rest →
      Spells ['x', d] (Char.ofNat (Text.positional 16 [d])) rest
  | digits {d e : Char} {rest : List Char} :
      Text.isDigitIn 16 d = true → Text.isDigitIn 16 e = true →
      Spells ['x', d, e] (Char.ofNat (Text.positional 16 [d, e])) rest

end Escape

namespace Lexeme

/-- The characters between the quotes of a string, and the text that they stand for. -/
inductive Quotes : (body : List Char) → (text : List Char) → Prop
  | nil : Quotes [] []
  | plain {c : Char} {body text : List Char} :
      c ≠ '"' → c ≠ '\n' → c ≠ '\\' → Quotes body text → Quotes (c :: body) (c :: text)
  | escape {escape body text : List Char} {c : Char} :
      Escape.Spells escape c (body ++ ['"']) → Quotes body text →
      Quotes ('\\' :: (escape ++ body)) (c :: text)

/-- The bases other than ten, with the letters that select them after a zero. -/
def bases : List (Char × Nat) := [('x', 16), ('X', 16), ('b', 2), ('B', 2), ('o', 8), ('O', 8)]

/-- The characters of `lexeme`, before the text `rest`, are a token. -/
inductive Spells : (lexeme : List Char) → Token.Kind → (rest : List Char) → Prop
  | newline {rest : List Char} : Spells ['\n'] .newline rest
  | identifier {first : Char} {more rest : List Char} :
      Char.startsName first = true → (∀ c ∈ more, Char.continuesName c = true) →
      Stops Char.continuesName rest →
      Spells (first :: more) (.identifier (String.ofList (first :: more))) rest
  | decimal {first : Char} {more rest : List Char} :
      (∀ c ∈ first :: more, c.isDigit = true) → (first :: more).length ≤ Digits.limit →
      Stops Char.continuesName rest →
      Spells (first :: more) (.number (Text.positional 10 (first :: more))) rest
  | based {letter first : Char} {base : Nat} {more rest : List Char} :
      (letter, base) ∈ bases → (∀ c ∈ first :: more, Text.isDigitIn base c = true) →
      Stops Char.continuesName rest →
      Spells ('0' :: letter :: first :: more) (.number (Text.positional base (first :: more))) rest
  | character {c : Char} {rest : List Char} :
      c ≠ '\n' → c ≠ '\\' → Spells ['\'', c, '\''] (.number c.toNat) rest
  | escaped {escape rest : List Char} {c : Char} :
      Escape.Spells escape c ['\''] →
      Spells ('\'' :: '\\' :: (escape ++ ['\''])) (.number c.toNat) rest
  | string {body text rest : List Char} :
      Quotes body text → Spells ('"' :: (body ++ ['"'])) (.string (String.ofList text)) rest
  | temp {field : Temp} {rest : List Char} :
      Stops Char.continuesName rest → Spells field.name.toList (.temp field) rest
  /-- A dollar sign by itself does not start a temp field. -/
  | dollar {rest : List Char} :
      (∀ (field : Temp) (after : List Char), '$' :: rest = field.name.toList ++ after →
        ¬ Stops Char.continuesName after) →
      Spells ['$'] (.mark .dollar) rest
  | mark {mark : Mark} {rest : List Char} :
      mark ≠ .dollar → Spells mark.text.toList (.mark mark) rest

/-- A text starts with a token of `size` characters. -/
def StartsWith (text : List Char) (kind : Token.Kind) (size : Nat) : Prop :=
  ∃ lexeme rest, text = lexeme ++ rest ∧ lexeme.length = size ∧ Spells lexeme kind rest

end Lexeme

/-! ## Escapes -/

namespace Escape

/-- A letter with a meaning stands for it. -/
theorem ofLetter_of_mem {letter c : Char} (h : (letter, c) ∈ named) :
    letter ≠ 'x' ∧ ofLetter letter = c := by
  have htable : ∀ pair ∈ named, pair.1 ≠ 'x' ∧ ofLetter pair.1 = pair.2 := by decide
  exact htable (letter, c) h

/-- Another character stands for itself. -/
theorem ofLetter_of_notMem {c : Char} (h : c ∉ named.map Prod.fst) : ofLetter c = c := by
  unfold ofLetter
  split
  · exact absurd (by decide) h
  · exact absurd (by decide) h
  · exact absurd (by decide) h
  · exact absurd (by decide) h
  · rfl

/-- An escape without a number takes one character. -/
theorem read_of_ne {c : Char} (hx : c ≠ 'x') (rest : List Char) :
    read (c :: rest) = .char (ofLetter c) 1 := by
  unfold read
  split
  · next heq => cases heq
  · next heq =>
      obtain ⟨rfl, -⟩ := List.cons.inj heq
      exact absurd rfl hx
  · next heq =>
      obtain ⟨rfl, -⟩ := List.cons.inj heq
      rfl

/-- A number of one digit takes two. -/
theorem read_digit {d : Char} {rest : List Char} (hd : Text.isDigitIn 16 d = true)
    (hrest : Stops (Text.isDigitIn 16) rest) :
    read ('x' :: d :: rest) = .char (Char.ofNat (Text.positional 16 [d])) 2 := by
  rw [← Text.digitsValue_eq_positional]
  cases rest with
  | nil => simp [read, hd]
  | cons e rest => simp [read, hd, Text.stops_cons.mp hrest]

/-- A number of two digits takes three. -/
theorem read_digits {d e : Char} (hd : Text.isDigitIn 16 d = true)
    (he : Text.isDigitIn 16 e = true) (rest : List Char) :
    read ('x' :: d :: e :: rest) = .char (Char.ofNat (Text.positional 16 [d, e])) 3 := by
  rw [← Text.digitsValue_eq_positional]
  simp [read, hd, he]

/-- What follows an escape sequence matters only in so far as it starts with a digit. -/
theorem Spells.before {escape rest rest' : List Char} {c : Char} (h : Spells escape c rest)
    (hstops : Stops (Text.isDigitIn 16) rest → Stops (Text.isDigitIn 16) rest') :
    Spells escape c rest' := by
  cases h with
  | letter hmem => exact .letter hmem
  | other hnot hx => exact .other hnot hx
  | digit hd hrest => exact .digit hd (hstops hrest)
  | digits hd he => exact .digits hd he

/-- An escape is read as what it spells. -/
theorem Spells.read_eq {escape rest : List Char} {c : Char} (h : Spells escape c rest) :
    read (escape ++ rest) = .char c escape.length := by
  cases h with
  | letter hmem =>
      obtain ⟨hx, rfl⟩ := ofLetter_of_mem hmem
      exact read_of_ne hx rest
  | other hnot hx =>
      rw [List.singleton_append, read_of_ne hx, ofLetter_of_notMem hnot]
      rfl
  | digit hd hrest => exact read_digit hd hrest
  | digits hd he => exact read_digits hd he rest

/-- What is read as an escape spells its character. -/
theorem spells_of_read {text : List Char} {c : Char} {size : Nat} (h : read text = .char c size) :
    ∃ escape rest, text = escape ++ rest ∧ escape.length = size ∧ Spells escape c rest := by
  match text with
  | [] => cases h
  | first :: rest =>
      -- after an `x` come one or two hexadecimal digits, after everything else nothing
      by_cases hx : first = 'x'
      · subst hx
        match rest with
        | [] => cases h
        | d :: rest =>
            cases hd : Text.isDigitIn 16 d with
            | false => simp [read, hd] at h
            | true =>
                by_cases hrest : Stops (Text.isDigitIn 16) rest
                · rw [read_digit hd hrest] at h
                  obtain ⟨rfl, rfl⟩ := Escape.char.inj h
                  exact ⟨['x', d], rest, rfl, rfl, .digit hd hrest⟩
                -- two digits are taken if there are two
                · match rest, hrest with
                  | [], hrest => exact absurd Text.stops_nil hrest
                  | e :: rest, hrest =>
                      have he : Text.isDigitIn 16 e = true := by simpa using hrest
                      rw [read_digits hd he] at h
                      obtain ⟨rfl, rfl⟩ := Escape.char.inj h
                      exact ⟨['x', d, e], rest, rfl, rfl, .digits hd he⟩
      · rw [read_of_ne hx] at h
        obtain ⟨rfl, rfl⟩ := Escape.char.inj h
        refine ⟨[first], rest, rfl, rfl, ?_⟩
        by_cases hmem : first ∈ named.map Prod.fst
        · obtain ⟨⟨letter, c⟩, hpair, rfl⟩ := List.mem_map.mp hmem
          obtain ⟨-, rfl⟩ := ofLetter_of_mem hpair
          exact .letter hpair
        · rw [ofLetter_of_notMem hmem]
          exact .other hmem hx

end Escape

/-! ## Strings and character literals -/

namespace Lexeme

/-- An escape in a string is passed over as a whole. -/
theorem readString_append (escape : List Char) (seen : Nat) (chars text : List Char) :
    readString escape.length seen chars (escape ++ text) =
      readString 0 (seen + escape.length) chars text := by
  induction escape generalizing seen with
  | nil => rfl
  | cons c escape ih =>
      rw [List.length_cons, List.cons_append, readString, ih]
      congr 1
      omega

/-- Nothing behind the quote matters for an escape before it. -/
theorem spells_before_quote {escape body rest : List Char} {c quote : Char} :
    Escape.Spells escape c (body ++ quote :: rest) ↔ Escape.Spells escape c (body ++ [quote]) := by
  have hstops : Stops (Text.isDigitIn 16) (body ++ quote :: rest) ↔
      Stops (Text.isDigitIn 16) (body ++ [quote]) := by
    cases body <;> simp
  exact ⟨fun h => h.before hstops.mp, fun h => h.before hstops.mpr⟩

/-- A quoted text is read as what it stands for. -/
theorem Quotes.readString_eq {body text : List Char} (h : Quotes body text) (seen : Nat)
    (chars rest : List Char) :
    readString 0 seen chars (body ++ '"' :: rest) =
      .token (.string (String.ofList (chars.reverse ++ text))) (seen + body.length + 1) := by
  -- the induction is on the body; each character or escape sequence adds one character to the text
  induction h generalizing seen chars with
  | nil =>
      rw [List.nil_append, readString, if_pos (beq_self_eq_true _), List.append_nil]
      rfl
  | @plain c body text hquote hline hslash _ ih =>
      rw [List.cons_append, readString, if_neg (by simpa using hquote),
        if_neg (by simpa using hline), if_neg (by simpa using hslash), ih, List.reverse_cons,
        List.append_assoc, List.length_cons]
      congr 1
      omega
  | @escape escape body text c hescape _ ih =>
      -- the closing quote ends an escape sequence as any other character would
      have hread : Escape.read (escape ++ (body ++ '"' :: rest)) = .char c escape.length :=
        (spells_before_quote.mpr hescape).read_eq
      rw [List.cons_append, List.append_assoc, readString, if_neg (by decide), if_neg (by decide),
        if_pos (beq_self_eq_true _), hread]
      simp only
      rw [readString_append, ih, List.reverse_cons, List.append_assoc, List.length_cons,
        List.length_append]
      congr 1
      omega

/-- What is read as a string is a quoted text. -/
theorem quotes_of_readString {skip seen size : Nat} {chars text : List Char} {kind : Token.Kind}
    (h : readString skip seen chars text = .token kind size) :
    ∃ body value rest, text.drop skip = body ++ '"' :: rest ∧ Quotes body value ∧
      kind = .string (String.ofList (chars.reverse ++ value)) ∧
      size = seen + skip + body.length + 1 := by
  induction text generalizing skip seen chars with
  | nil => cases skip <;> cases h
  | cons c text ih =>
      -- characters of an escape sequence that has been read are skipped
      match skip with
      | skip + 1 =>
          obtain ⟨body, value, rest, htext, hbody, hkind, hsize⟩ := ih h
          exact ⟨body, value, rest, htext, hbody, hkind, by omega⟩
      | 0 =>
          rw [readString] at h
          by_cases hquote : c = '"'
          · rw [if_pos (beq_iff_eq.mpr hquote)] at h
            obtain ⟨rfl, rfl⟩ := Lexeme.token.inj h
            exact ⟨[], [], text, by rw [hquote]; rfl, .nil, by rw [List.append_nil], rfl⟩
          rw [if_neg (by simpa using hquote)] at h
          by_cases hline : c = '\n'
          · rw [if_pos (beq_iff_eq.mpr hline)] at h
            cases h
          rw [if_neg (by simpa using hline)] at h
          by_cases hslash : c = '\\'
          · rw [if_pos (beq_iff_eq.mpr hslash)] at h
            -- the escape sequence is read from the text, and then skipped
            cases hread : Escape.read text with
            | bad cause seen =>
                rw [hread] at h
                cases h
            | char e count =>
                rw [hread] at h
                obtain ⟨body, value, rest, htext, hbody, hkind, hsize⟩ := ih h
                obtain ⟨escape, after, rfl, rfl, hescape⟩ := Escape.spells_of_read hread
                rw [List.drop_left] at htext
                subst htext
                refine ⟨'\\' :: (escape ++ body), e :: value, rest, ?_,
                  .escape (spells_before_quote.mp hescape) hbody, ?_, ?_⟩
                · rw [hslash, List.drop_zero, List.cons_append, List.append_assoc]
                · rw [hkind, List.reverse_cons, List.append_assoc, List.singleton_append]
                · rw [hsize, List.length_cons, List.length_append]
                  omega
          · rw [if_neg (by simpa using hslash)] at h
            obtain ⟨body, value, rest, htext, hbody, hkind, hsize⟩ := ih h
            refine ⟨c :: body, c :: value, rest, ?_, .plain hquote hline hslash hbody, ?_, ?_⟩
            · rw [List.drop_zero, List.cons_append, ← htext, List.drop_zero]
            · rw [hkind, List.reverse_cons, List.append_assoc, List.singleton_append]
            · rw [hsize, List.length_cons]
              omega

end Lexeme

/-! ## Numbers, dollar signs and marks -/

namespace Lexeme

/-- The letters of the bases. -/
theorem base?_eq_some {letter : Char} {base : Nat} :
    base? letter = some base ↔ (letter, base) ∈ bases := by
  constructor
  · intro h
    unfold base? at h
    split at h <;> cases h <;> decide
  · intro h
    have htable : ∀ pair ∈ bases, base? pair.1 = some pair.2 := by decide
    exact htable (letter, base) h

/-- A name does not go on exactly if neither a letter nor a digit follows. -/
theorem stops_continuesName {rest : List Char} :
    Stops Char.continuesName rest ↔ Stops Char.startsName rest ∧ Stops (·.isDigit) rest := by
  cases rest <;> simp [Char.continuesName]

/-- Digits that no letter follows are a number, unless there are too many of them. -/
theorem readDecimal_eq {digits rest : List Char} (hdigits : ∀ c ∈ digits, c.isDigit = true)
    (hrest : Stops Char.continuesName rest) :
    readDecimal (digits ++ rest) = ofDecimal digits := by
  obtain ⟨hname, hdigit⟩ := stops_continuesName.mp hrest
  simp only [readDecimal, Text.takeWhile_append_of_stops hdigits hdigit, List.drop_left]
  cases rest with
  | nil => rfl
  | cons c rest => simp [Text.stops_cons.mp hname]

/-- A decimal number of moderate length is a token. -/
theorem ofDecimal_of_le {digits : List Char} (h : digits.length ≤ Digits.limit) :
    ofDecimal digits = .token (.number (Text.positional 10 digits)) digits.length := by
  rw [ofDecimal, if_pos h, Text.digitsValue_eq_positional]

theorem ofDecimal_of_lt {digits : List Char} (h : Digits.limit < digits.length) :
    ofDecimal digits = .overlong digits.length := by
  rw [ofDecimal, if_neg (Nat.not_le.mpr h)]

/-- Of a number in decimal, either all the digits are read, or a letter stands behind them. -/
theorem readDecimal_cases (text : List Char) :
    ∃ digits rest, text = digits ++ rest ∧ (∀ c ∈ digits, c.isDigit = true) ∧
      (Stops Char.continuesName rest ∨ ∃ cause seen, readDecimal text = badHere cause seen) := by
  obtain ⟨digits, rest, rfl, hdigits, hrest⟩ := Text.exists_run (·.isDigit) text
  refine ⟨digits, rest, rfl, hdigits, ?_⟩
  cases rest with
  | nil => exact .inl Text.stops_nil
  | cons c rest =>
      cases hc : Char.startsName c with
      | false => exact .inl (stops_continuesName.mpr ⟨Text.stops_cons.mpr hc, hrest⟩)
      | true =>
          refine .inr ⟨.invalidDigit c, digits.length, ?_⟩
          simp [readDecimal, Text.takeWhile_append_of_stops hdigits hrest, hc]

/-- What is read as a decimal number consists of digits, has moderate length, and ends before a name
could go on. -/
theorem decimal_of_read {text : List Char} {kind : Token.Kind} {size : Nat}
    (h : readDecimal text = .token kind size) :
    ∃ digits rest, text = digits ++ rest ∧ digits.length = size ∧
      (∀ c ∈ digits, c.isDigit = true) ∧ digits.length ≤ Digits.limit ∧
      Stops Char.continuesName rest ∧ kind = .number (Text.positional 10 digits) := by
  obtain ⟨digits, rest, rfl, hdigits, hrest | ⟨cause, seen, hbad⟩⟩ := readDecimal_cases text
  · rw [readDecimal_eq hdigits hrest] at h
    rcases Nat.lt_or_ge Digits.limit digits.length with hlong | hshort
    · rw [ofDecimal_of_lt hlong] at h
      cases h
    · rw [ofDecimal_of_le hshort] at h
      obtain ⟨rfl, rfl⟩ := Lexeme.token.inj h
      exact ⟨digits, rest, rfl, rfl, hdigits, hshort, hrest, rfl⟩
  · rw [hbad] at h
    cases h

/-- Digits after a prefix are read in their base. -/
theorem readBased_eq {base : Nat} {first : Char} {more rest : List Char}
    (hdigits : ∀ c ∈ first :: more, Text.isDigitIn base c = true)
    (hrest : Stops Char.continuesName rest) :
    readBased base (first :: more ++ rest) =
      .token (.number (Text.positional base (first :: more))) (2 + (first :: more).length) := by
  have hdigit : Stops (Text.isDigitIn base) rest :=
    hrest.of_imp fun c => Text.continuesName_of_isDigitIn
  simp only [readBased, Text.takeWhile_append_of_stops hdigits hdigit, List.drop_left,
    Text.digitsValue_eq_positional]
  cases rest with
  | nil => rfl
  | cons c rest => simp [Text.stops_cons.mp hrest]

/-- What is read after a prefix consists of digits of the base. -/
theorem based_of_read {base size : Nat} {text : List Char} {kind : Token.Kind}
    (h : readBased base text = .token kind size) :
    ∃ first more rest, text = first :: more ++ rest ∧ 2 + (first :: more).length = size ∧
      (∀ c ∈ first :: more, Text.isDigitIn base c = true) ∧ Stops Char.continuesName rest ∧
      kind = .number (Text.positional base (first :: more)) := by
  obtain ⟨digits, rest, rfl, hdigits, hdigit⟩ := Text.exists_run (Text.isDigitIn base) text
  have hread := h
  simp only [readBased, Text.takeWhile_append_of_stops hdigits hdigit, List.drop_left] at h
  match digits with
  | [] => cases h
  | first :: more =>
      -- a letter right after the digits is refused
      have hrest : Stops Char.continuesName rest := by
        cases rest with
        | nil => exact Text.stops_nil
        | cons c rest =>
            cases hc : Char.continuesName c with
            | false => exact Text.stops_cons.mpr hc
            | true => simp [hc, badHere] at h
      rw [readBased_eq hdigits hrest] at hread
      obtain ⟨rfl, rfl⟩ := Lexeme.token.inj hread
      exact ⟨first, more, rest, rfl, rfl, hdigits, hrest, rfl⟩

/-- A number that no letter after a leading zero gives another base. -/
theorem readNumber_of_base? {first : Char} {rest : List Char}
    (h : first = '0' → ∀ letter ∈ rest.head?, base? letter = none) :
    readNumber first rest = readDecimal (first :: rest) := by
  unfold readNumber
  split
  · next letter digits =>
      rw [h rfl letter rfl]
  · rfl

/-- The letters of the bases are letters. -/
theorem startsName_of_base? {letter : Char} {base : Nat} (h : base? letter = some base) :
    letter.isDigit = false ∧ Char.startsName letter = true := by
  have htable : ∀ pair ∈ bases,
      pair.1.isDigit = false ∧ Char.startsName pair.1 = true := by decide
  exact htable (letter, base) (base?_eq_some.mp h)

/-- Digits without a prefix are a decimal number. -/
theorem readNumber_decimal {first : Char} {more rest : List Char}
    (hdigits : ∀ c ∈ first :: more, c.isDigit = true) (hrest : Stops Char.continuesName rest) :
    readNumber first (more ++ rest) = readDecimal (first :: more ++ rest) := by
  apply readNumber_of_base?
  intro _ letter hletter
  cases hbase : base? letter with
  | none => rfl
  | some base =>
      -- The letter would be a digit of the number, or follow it.
      obtain ⟨hdigit, hname⟩ := startsName_of_base? hbase
      cases more with
      | nil =>
          have hfalse := (stops_continuesName.mp hrest).1 letter hletter
          rw [hname] at hfalse
          cases hfalse
      | cons c more =>
          obtain rfl : c = letter := Option.some.inj hletter
          rw [hdigits c (by simp)] at hdigit
          cases hdigit

/-- The letter of a temp field is the second character of its name. -/
theorem ofLetter?_eq_some {letter : Char} {field : Temp} :
    Temp.ofLetter? letter = some field ↔ field.name.toList = ['$', letter] := by
  constructor
  · intro h
    unfold Temp.ofLetter? at h
    split at h <;> cases h <;> decide
  · intro h
    cases field <;> cases h <;> rfl

/-- The name of a temp field is a dollar sign and a letter. -/
theorem exists_letter (field : Temp) : ∃ letter, field.name.toList = ['$', letter] := by
  cases field <;> exact ⟨_, rfl⟩

/-- A temp field is read by its letter, if no longer name could be meant. -/
theorem readDollar_temp {field : Temp} {rest after : List Char}
    (h : '$' :: rest = field.name.toList ++ after) (hafter : Stops Char.continuesName after) :
    readDollar rest = .token (.temp field) 2 := by
  have hfollow : (after.head?.map Char.continuesName).getD false = false := by
    cases after with
    | nil => rfl
    | cons c after => simpa using hafter
  obtain ⟨letter, hname⟩ := exists_letter field
  rw [hname] at h
  obtain rfl := (List.cons.inj h).2
  simp [readDollar, ofLetter?_eq_some.mpr hname, hfollow]

/-- Any other dollar sign stands by itself. -/
theorem readDollar_alone {rest : List Char}
    (h : ∀ (field : Temp) (after : List Char), '$' :: rest = field.name.toList ++ after →
      ¬ Stops Char.continuesName after) :
    readDollar rest = .token (.mark .dollar) 1 := by
  cases rest with
  | nil => rfl
  | cons letter after =>
      rw [readDollar]
      cases hfield : Temp.ofLetter? letter with
      | none => rfl
      | some field =>
          have hafter := h field after (by rw [ofLetter?_eq_some.mp hfield]; rfl)
          cases after with
          | nil => exact absurd Text.stops_nil hafter
          | cons c after =>
              have hc : Char.continuesName c = true := by simpa using hafter
              simp [hc]

/-- What is read at a dollar sign is a temp field or the mark. -/
theorem spells_of_readDollar {rest : List Char} {kind : Token.Kind} {size : Nat}
    (h : readDollar rest = .token kind size) :
    StartsWith ('$' :: rest) kind size := by
  by_cases htemp : ∃ (field : Temp) (after : List Char), '$' :: rest = field.name.toList ++ after ∧
      Stops Char.continuesName after
  · obtain ⟨field, after, htext, hafter⟩ := htemp
    rw [readDollar_temp htext hafter] at h
    obtain ⟨rfl, rfl⟩ := Lexeme.token.inj h
    obtain ⟨letter, hname⟩ := exists_letter field
    exact ⟨field.name.toList, after, htext, by rw [hname]; rfl, .temp hafter⟩
  · have halone : ∀ (field : Temp) (after : List Char), '$' :: rest = field.name.toList ++ after →
        ¬ Stops Char.continuesName after :=
      fun field after htext hafter => htemp ⟨field, after, htext, hafter⟩
    rw [readDollar_alone halone] at h
    obtain ⟨rfl, rfl⟩ := Lexeme.token.inj h
    exact ⟨['$'], rest, rfl, rfl, .dollar halone⟩

/-- A mark of one character is known by it. -/
theorem ofChar?_eq_some {c : Char} {mark : Mark} :
    Mark.ofChar? c = some mark ↔ mark.text.toList = [c] ∧ mark ≠ .dollar := by
  constructor
  · intro h
    unfold Mark.ofChar? at h
    split at h <;> cases h <;> decide
  · rintro ⟨htext, hdollar⟩
    cases mark with
    | dollar => exact absurd rfl hdollar
    | leftShift | rightShift => cases htext
    | _ =>
        obtain ⟨rfl, -⟩ := List.cons.inj htext
        rfl

/-! ## The word at the head of a text -/

/-- What is read as a mark starts with its text. -/
theorem mark_of_readMark {c : Char} {rest : List Char} {kind : Token.Kind} {size : Nat}
    (h : readMark c rest = .token kind size) :
    ∃ mark after, c :: rest = mark.text.toList ++ after ∧ mark.text.toList.length = size ∧
      mark ≠ .dollar ∧ kind = .mark mark := by
  unfold readMark at h
  split at h
  · cases h
    exact ⟨.leftShift, _, rfl, rfl, nofun, rfl⟩
  · cases h
    exact ⟨.rightShift, _, rfl, rfl, nofun, rfl⟩
  · split at h
    · next mark hmark =>
        obtain ⟨rfl, rfl⟩ := Lexeme.token.inj h
        obtain ⟨htext, hdollar⟩ := ofChar?_eq_some.mp hmark
        exact ⟨mark, rest, by rw [htext]; rfl, by rw [htext]; rfl, hdollar, rfl⟩
    · cases h

/-- No word is empty. -/
theorem Spells.ne_nil {lexeme rest : List Char} {kind : Token.Kind}
    (h : Spells lexeme kind rest) : lexeme ≠ [] := by
  cases h with
  | @temp field => cases field <;> decide
  | @mark mark => cases mark <;> decide
  | _ => exact List.cons_ne_nil _ _

/-- Words are neither blanks nor comments nor line feeds. -/
theorem ne_of_continuesName {c : Char} (h : Char.continuesName c = true) :
    ¬ Char.isGap c = true ∧ ¬ (c == ';') = true ∧ ¬ (c == '\n') = true := by
  refine ⟨?_, ?_, ?_⟩
  · intro hgap
    simp only [Char.isGap, Bool.or_eq_true, beq_iff_eq] at hgap
    obtain (rfl | rfl) | rfl := hgap <;> exact absurd h (by decide)
  · rw [beq_iff_eq]
    rintro rfl
    exact absurd h (by decide)
  · rw [beq_iff_eq]
    rintro rfl
    exact absurd h (by decide)

/-- No name starts with a digit. -/
theorem startsName_of_isDigit {c : Char} (h : c.isDigit = true) : ¬ Char.startsName c = true := by
  simp only [Char.isDigit, Bool.and_eq_true, decide_eq_true_eq, UInt32.le_iff_toNat_le] at h
  simp only [Char.startsName, Char.isAlpha, Char.isUpper, Char.isLower, Bool.or_eq_true,
    Bool.and_eq_true, decide_eq_true_eq, UInt32.le_iff_toNat_le, beq_iff_eq]
  rintro (((hupper | hlower) | rfl) | rfl)
  · exact absurd (hupper.1.trans h.2) (by decide)
  · exact absurd (hlower.1.trans h.2) (by decide)
  · exact absurd h (by decide)
  · exact absurd h (by decide)

/-- A name is read as far as it goes on. -/
theorem read_name {c : Char} (h : Char.startsName c = true) (rest : List Char) :
    read c rest = .token (.identifier (String.ofList (c :: rest.takeWhile Char.continuesName)))
      (1 + (rest.takeWhile Char.continuesName).length) := by
  obtain ⟨hgap, hcomment, hline⟩ := ne_of_continuesName (c := c) (by simp [Char.continuesName, h])
  rw [read, if_neg hgap, if_neg hcomment, if_neg hline, if_pos h]

/-- What starts with a digit is read as a number. -/
theorem read_number {c : Char} (h : c.isDigit = true) (rest : List Char) :
    read c rest = readNumber c rest := by
  obtain ⟨hgap, hcomment, hline⟩ := ne_of_continuesName (c := c) (by simp [Char.continuesName, h])
  rw [read, if_neg hgap, if_neg hcomment, if_neg hline, if_neg (startsName_of_isDigit h), if_pos h]

/-- An escaped character between quotes is a number. -/
theorem readCharacter_escaped {escape rest : List Char} {c : Char}
    (h : Escape.Spells escape c ['\'']) :
    readCharacter ('\\' :: (escape ++ '\'' :: rest)) =
      .token (.number c.toNat) (escape.length + 3) := by
  have hquoted : Escape.Spells escape c ([] ++ '\'' :: rest) := spells_before_quote.mpr h
  have hread : Escape.read (escape ++ '\'' :: rest) = .char c escape.length := hquoted.read_eq
  rw [readCharacter, if_neg (by decide), if_pos (beq_self_eq_true _), hread]
  simp only [List.drop_left, closeCharacter]
  congr 1
  omega

/-- A word of the grammar is read as what it is. -/
theorem Spells.read_eq {c : Char} {more rest : List Char} {kind : Token.Kind}
    (h : Spells (c :: more) kind rest) :
    read c (more ++ rest) = .token kind (c :: more).length := by
  -- the form of the word decides which reader its first character calls
  generalize hlexeme : c :: more = lexeme at h
  cases h with
  | newline =>
      obtain ⟨rfl, rfl⟩ := List.cons.inj hlexeme
      rfl
  | identifier hfirst hmore hrest =>
      obtain ⟨rfl, rfl⟩ := List.cons.inj hlexeme
      rw [read_name hfirst, Text.takeWhile_append_of_stops hmore hrest, List.length_cons,
        Nat.add_comm]
  | decimal hdigits hshort hrest =>
      obtain ⟨rfl, rfl⟩ := List.cons.inj hlexeme
      rw [read_number (hdigits c List.mem_cons_self), readNumber_decimal hdigits hrest,
        readDecimal_eq hdigits hrest, ofDecimal_of_le hshort]
  | @based letter first base digits _ hbase hdigits hrest =>
      obtain ⟨rfl, rfl⟩ := List.cons.inj hlexeme
      rw [read_number (by decide), List.cons_append, readNumber, base?_eq_some.mpr hbase]
      simp only
      rw [readBased_eq hdigits hrest]
      congr 1
      exact Nat.add_comm 2 _
  | @character d _ hline hslash =>
      obtain ⟨rfl, rfl⟩ := List.cons.inj hlexeme
      show readCharacter (d :: '\'' :: rest) = _
      rw [readCharacter, if_neg (by simpa using hline), if_neg (by simpa using hslash)]
      rfl
  | @escaped escape _ d hescape =>
      obtain ⟨rfl, rfl⟩ := List.cons.inj hlexeme
      show readCharacter ('\\' :: (escape ++ ['\''] ++ rest)) = _
      rw [List.append_assoc, List.singleton_append, readCharacter_escaped hescape]
      simp only [List.length_cons, List.length_append, List.length_nil]
  | @string body text _ hbody =>
      obtain ⟨rfl, rfl⟩ := List.cons.inj hlexeme
      show readString 0 1 [] (body ++ ['"'] ++ rest) = _
      rw [List.append_assoc, List.singleton_append, hbody.readString_eq]
      simp only [List.reverse_nil, List.nil_append, List.length_cons, List.length_append,
        List.length_nil]
      congr 1
      omega
  | @temp field _ hrest =>
      obtain ⟨letter, hname⟩ := exists_letter field
      rw [hname] at hlexeme ⊢
      obtain ⟨rfl, rfl⟩ := List.cons.inj hlexeme
      exact readDollar_temp (by rw [hname]; rfl) hrest
  | dollar halone =>
      obtain ⟨rfl, rfl⟩ := List.cons.inj hlexeme
      exact readDollar_alone halone
  | @mark mark _ hdollar =>
      cases mark with
      | dollar => exact absurd rfl hdollar
      | _ =>
          obtain ⟨rfl, rfl⟩ := List.cons.inj hlexeme
          rfl

/-- What is read as a number is one of the spellings of numbers. -/
theorem spells_of_readNumber {first : Char} {rest : List Char} {kind : Token.Kind} {size : Nat}
    (hfirst : first.isDigit = true) (h : readNumber first rest = .token kind size) :
    StartsWith (first :: rest) kind size := by
  by_cases hbase : ∃ letter digits base, first = '0' ∧ rest = letter :: digits ∧
      base? letter = some base
  · obtain ⟨letter, digits, base, rfl, rfl, hletter⟩ := hbase
    rw [readNumber, hletter] at h
    obtain ⟨d, more, after, rfl, rfl, hdigits, hafter, rfl⟩ := based_of_read h
    exact ⟨'0' :: letter :: d :: more, after, rfl, Nat.add_comm _ 2,
      .based (base?_eq_some.mp hletter) hdigits hafter⟩
  · have hdecimal : readNumber first rest = readDecimal (first :: rest) := by
      apply readNumber_of_base?
      intro hzero letter hletter
      cases hnone : base? letter with
      | none => rfl
      | some base =>
          obtain ⟨digits, rfl⟩ := List.head?_eq_some_iff.mp hletter
          exact absurd ⟨letter, digits, base, hzero, rfl, hnone⟩ hbase
    rw [hdecimal] at h
    obtain ⟨digits, after, htext, rfl, hdigits, hshort, hafter, rfl⟩ := decimal_of_read h
    match digits with
    | [] =>
        -- The first character is a digit, so that there is at least one.
        rw [List.nil_append] at htext
        rw [← htext, Text.stops_cons, Char.continuesName, hfirst, Bool.or_true] at hafter
        cases hafter
    | d :: more => exact ⟨d :: more, after, htext, rfl, .decimal hdigits hshort hafter⟩

/-- A character has to be closed by a quote. -/
theorem closed_of_closeCharacter {c : Char} {seen size : Nat} {text : List Char}
    {kind : Token.Kind} (h : closeCharacter c seen text = .token kind size) :
    ∃ after, text = '\'' :: after ∧ kind = .number c.toNat ∧ size = seen + 1 := by
  unfold closeCharacter at h
  split at h
  · obtain ⟨rfl, rfl⟩ := Lexeme.token.inj h
    exact ⟨_, rfl, rfl, rfl⟩
  · cases h

/-- What is read as a character is one of its spellings. -/
theorem spells_of_readCharacter {rest : List Char} {kind : Token.Kind} {size : Nat}
    (h : readCharacter rest = .token kind size) :
    StartsWith ('\'' :: rest) kind size := by
  match rest with
  | [] => cases h
  | c :: rest =>
      rw [readCharacter] at h
      by_cases hline : c = '\n'
      · rw [if_pos (beq_iff_eq.mpr hline)] at h
        cases h
      rw [if_neg (by simpa using hline)] at h
      by_cases hslash : c = '\\'
      · subst hslash
        rw [if_pos (beq_self_eq_true _)] at h
        cases hread : Escape.read rest with
        | bad cause seen =>
            rw [hread] at h
            cases h
        | char d count =>
            rw [hread] at h
            obtain ⟨escape, text, rfl, rfl, hescape⟩ := Escape.spells_of_read hread
            simp only [List.drop_left] at h
            obtain ⟨after, rfl, rfl, rfl⟩ := closed_of_closeCharacter h
            -- an escape sequence does not see what comes after the quote
            have hclosed : Escape.Spells escape d ([] ++ ['\'']) := spells_before_quote.mp hescape
            refine ⟨'\'' :: '\\' :: (escape ++ ['\'']), after, ?_, ?_, .escaped hclosed⟩
            · simp
            · simp only [List.length_cons, List.length_append, List.length_nil]
              omega
      · rw [if_neg (by simpa using hslash)] at h
        obtain ⟨after, rfl, rfl, rfl⟩ := closed_of_closeCharacter h
        exact ⟨['\'', c, '\''], after, rfl, rfl, .character hline hslash⟩

/-- What is read as a token is a word of the grammar. -/
theorem spells_of_read {c : Char} {rest : List Char} {kind : Token.Kind} {size : Nat}
    (h : read c rest = .token kind size) :
    StartsWith (c :: rest) kind size := by
  unfold read at h
  -- the tests are gone through in the order in which the scanner makes them
  by_cases hgap : Char.isGap c = true
  · rw [if_pos hgap] at h
    cases h
  rw [if_neg hgap] at h
  by_cases hcomment : (c == ';') = true
  · rw [if_pos hcomment] at h
    cases h
  rw [if_neg hcomment] at h
  by_cases hline : (c == '\n') = true
  · obtain rfl := beq_iff_eq.mp hline
    rw [if_pos hline] at h
    obtain ⟨rfl, rfl⟩ := Lexeme.token.inj h
    exact ⟨['\n'], rest, rfl, rfl, .newline⟩
  rw [if_neg hline] at h
  by_cases hname : Char.startsName c = true
  · obtain ⟨more, after, rfl, hmore, hafter⟩ := Text.exists_run Char.continuesName rest
    rw [if_pos hname, Text.takeWhile_append_of_stops hmore hafter] at h
    obtain ⟨rfl, rfl⟩ := Lexeme.token.inj h
    exact ⟨c :: more, after, rfl, Nat.add_comm _ _, .identifier hname hmore hafter⟩
  rw [if_neg hname] at h
  by_cases hdigit : c.isDigit = true
  · rw [if_pos hdigit] at h
    exact spells_of_readNumber hdigit h
  rw [if_neg hdigit] at h
  by_cases hdollar : (c == '$') = true
  · obtain rfl := beq_iff_eq.mp hdollar
    rw [if_pos hdollar] at h
    exact spells_of_readDollar h
  rw [if_neg hdollar] at h
  by_cases hquote : (c == '"') = true
  · obtain rfl := beq_iff_eq.mp hquote
    rw [if_pos hquote] at h
    obtain ⟨body, text, after, hrest, hbody, rfl, rfl⟩ := quotes_of_readString h
    refine ⟨'"' :: (body ++ ['"']), after, ?_, ?_, .string hbody⟩
    · rw [List.drop_zero] at hrest
      simp [hrest]
    · simp only [List.length_cons, List.length_append, List.length_nil]
      omega
  rw [if_neg hquote] at h
  by_cases hcharacter : (c == '\'') = true
  · obtain rfl := beq_iff_eq.mp hcharacter
    rw [if_pos hcharacter] at h
    exact spells_of_readCharacter h
  rw [if_neg hcharacter] at h
  obtain ⟨mark, after, htext, rfl, hdollar, rfl⟩ := mark_of_readMark h
  exact ⟨mark.text.toList, after, htext, rfl, .mark hdollar⟩

end Lexeme

/-! ## Blanks and comments -/

namespace Lexeme

/-- Blanks and comments before the text `rest`.  A comment goes on to the next line feed, or to the
end of the text. -/
inductive Gap : (gap rest : List Char) → Prop
  | nil {rest : List Char} : Gap [] rest
  | blank {c : Char} {gap rest : List Char} :
      c = ' ' ∨ c = '\t' ∨ c = '\r' → Gap gap rest → Gap (c :: gap) rest
  | comment {body gap rest : List Char} :
      '\n' ∉ body → Stops (· != '\n') (gap ++ rest) → Gap gap rest →
      Gap (';' :: (body ++ gap)) rest

theorem isGap_iff {c : Char} : Char.isGap c = true ↔ c = ' ' ∨ c = '\t' ∨ c = '\r' := by
  simp [Char.isGap, or_assoc]

theorem read_blank {c : Char} (h : Char.isGap c = true) (rest : List Char) :
    read c rest = .gap (1 + (rest.takeWhile Char.isGap).length) := by
  rw [read, if_pos h]

/-- A comment is a gap up to the end of its line. -/
theorem read_comment {body rest : List Char} (hbody : '\n' ∉ body)
    (hrest : Stops (· != '\n') rest) : read ';' (body ++ rest) = .gap (1 + body.length) := by
  have hplain : ∀ c ∈ body, (c != '\n') = true := by
    intro c hc
    rw [bne_iff_ne]
    rintro rfl
    exact hbody hc
  show Lexeme.gap (1 + ((body ++ rest).takeWhile (· != '\n')).length) = _
  rw [Text.takeWhile_append_of_stops hplain hrest]

/-- A token, or something that is no lexeme of the language. -/
def IsWord : Lexeme → Prop
  | .token _ _ => True
  | .bad _ _ _ => True
  | .gap _ => False
  | .overlong _ => False

/-- A string is a word, or refused. -/
theorem isWord_readString (skip seen : Nat) (chars text : List Char) :
    (readString skip seen chars text).IsWord := by
  fun_induction readString skip seen chars text with
  | case1 | case3 | case4 | case6 => trivial
  | case2 _ _ _ _ _ ih | case5 _ _ _ _ _ _ _ _ _ _ ih | case7 _ _ _ _ _ _ _ ih => exact ih

/-- So is a number with a prefix. -/
theorem isWord_readBased (base : Nat) (text : List Char) : (readBased base text).IsWord := by
  simp only [readBased, badHere]
  split_ifs
  · trivial
  · split
    · split_ifs <;> trivial
    · trivial

/-- So is what starts with a dollar sign. -/
theorem isWord_readDollar (rest : List Char) : (readDollar rest).IsWord := by
  unfold readDollar
  split
  · split
    · split_ifs <;> trivial
    · trivial
  · trivial

/-- So is a character. -/
theorem isWord_readCharacter (rest : List Char) : (readCharacter rest).IsWord := by
  have hclose : ∀ c seen text, (closeCharacter c seen text).IsWord := by
    intro c seen text
    unfold closeCharacter
    split <;> trivial
  unfold readCharacter
  split
  · trivial
  · split_ifs
    · trivial
    · split
      · exact hclose _ _ _
      · trivial
    · exact hclose _ _ _

/-- So is a mark. -/
theorem isWord_readMark (c : Char) (rest : List Char) : (readMark c rest).IsWord := by
  unfold readMark
  split
  · trivial
  · trivial
  · split <;> trivial

/-- A text starts with a run of more digits than a number may have. -/
def StartsOverlong (text : List Char) (size : Nat) : Prop :=
  ∃ digits rest, text = digits ++ rest ∧ (∀ c ∈ digits, c.isDigit = true) ∧
    Digits.limit < size ∧ digits.length = size

/-- Only a number in decimal can have too many digits. -/
theorem isWord_readNumber (first : Char) (rest : List Char) :
    (readNumber first rest).IsWord ∨
      ∃ size, readNumber first rest = .overlong size ∧ StartsOverlong (first :: rest) size := by
  -- a decimal numeral may be overlong; one with a prefix never is
  have hdecimal : (readDecimal (first :: rest)).IsWord ∨
      ∃ size, readDecimal (first :: rest) = .overlong size ∧
        StartsOverlong (first :: rest) size := by
    obtain ⟨digits, after, htext, hdigits, hafter | ⟨cause, seen, hbad⟩⟩ :=
      readDecimal_cases (first :: rest)
    · rw [htext, readDecimal_eq hdigits hafter]
      rcases Nat.lt_or_ge Digits.limit digits.length with hlong | hshort
      · exact .inr ⟨digits.length, ofDecimal_of_lt hlong, digits, after, rfl, hdigits, hlong, rfl⟩
      · rw [ofDecimal_of_le hshort]
        exact .inl trivial
    · rw [hbad]
      exact .inl trivial
  unfold readNumber
  split
  · split
    · exact .inl (isWord_readBased _ _)
    · exact hdecimal
  · exact hdecimal

/-- Only blanks and comments are read as gaps, and only digits as a number of too many digits. -/
theorem isWord_read {c : Char} (hgap : ¬ Char.isGap c = true) (hcomment : c ≠ ';')
    (rest : List Char) :
    (read c rest).IsWord ∨
      ∃ size, read c rest = .overlong size ∧ StartsOverlong (c :: rest) size := by
  rw [read, if_neg hgap, if_neg (by simpa using hcomment)]
  by_cases hline : (c == '\n') = true
  · rw [if_pos hline]
    exact .inl trivial
  rw [if_neg hline]
  by_cases hname : Char.startsName c = true
  · rw [if_pos hname]
    exact .inl trivial
  rw [if_neg hname]
  by_cases hdigit : c.isDigit = true
  · rw [if_pos hdigit]
    exact isWord_readNumber c rest
  rw [if_neg hdigit]
  -- only a number can be overlong
  left
  by_cases hdollar : (c == '$') = true
  · rw [if_pos hdollar]
    exact isWord_readDollar _
  rw [if_neg hdollar]
  by_cases hquote : (c == '"') = true
  · rw [if_pos hquote]
    exact isWord_readString _ _ _ _
  rw [if_neg hquote]
  by_cases hcharacter : (c == '\'') = true
  · rw [if_pos hcharacter]
    exact isWord_readCharacter _
  rw [if_neg hcharacter]
  exact isWord_readMark _ _

/-- What is read as a gap consists of blanks, or is a comment up to the end of its line. -/
theorem gap_of_read {c : Char} {rest : List Char} {size : Nat} (h : read c rest = .gap size) :
    ∃ more after, rest = more ++ after ∧ size = 1 + more.length ∧
      ((∀ d ∈ c :: more, Char.isGap d = true) ∨
        c = ';' ∧ '\n' ∉ more ∧ Stops (· != '\n') after) := by
  by_cases hgap : Char.isGap c = true
  · rw [read_blank hgap] at h
    obtain rfl := Lexeme.gap.inj h
    obtain ⟨more, after, rfl, hmore, hafter⟩ := Text.exists_run Char.isGap rest
    rw [Text.takeWhile_append_of_stops hmore hafter]
    exact ⟨more, after, rfl, rfl, .inl (List.forall_mem_cons.mpr ⟨hgap, hmore⟩)⟩
  by_cases hcomment : c = ';'
  · subst hcomment
    obtain ⟨more, after, rfl, hmore, hafter⟩ := Text.exists_run (· != '\n') rest
    have hline : '\n' ∉ more := fun hmem => absurd (hmore '\n' hmem) (by decide)
    rw [read_comment hline hafter] at h
    obtain rfl := Lexeme.gap.inj h
    exact ⟨more, after, rfl, rfl, .inr ⟨rfl, hline, hafter⟩⟩
  -- everything else is a word or overlong, and no gap
  · obtain hword | ⟨digits, hlong, -⟩ := isWord_read hgap hcomment rest
    · rw [h] at hword
      exact hword.elim
    · rw [h] at hlong
      cases hlong

end Lexeme

end Subleq
