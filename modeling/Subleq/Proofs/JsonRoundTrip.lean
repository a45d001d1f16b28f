import Mathlib
import Subleq.Json.Printer
import Subleq.Json.Reader
import Subleq.Proofs.Digits

/-!
# Reading back what has been written

The reader of JSON undoes the printer (`Json.exists_render`), for every value that has no number with
a fraction, no integer of too many digits, no half of a surrogate pair, and no object with two
fields of one name (`Json.Writable`).  What is written consists of line feeds and of characters that
ASCII can print (`Json.Writable.all_isPlain`).  A value that has an integer of too many digits is
not written at all (`Json.render_eq_error_iff`).

The proof goes along the value.  What it carries is `Json.Reads`: wherever a printed value stands,
the reader takes exactly its characters, provided that it has rounds enough and that no character
follows with which a number could go on.  Two rounds to a character are always enough, so that the
bound of `Json.read` is never reached.
-/

namespace Subleq

/-! ## New keys -/

namespace OrderedMap

variable {α β : Type}

/-- A new key goes to the end. -/
theorem put_of_notMem [BEq α] [LawfulBEq α] {map : OrderedMap α β} {key : α} {value : β}
    (h : key ∉ keys map) : put key value map = map ++ [(key, value)] := by
  induction map with
  | nil => rfl
  | cons pair map ih =>
      rw [keys, List.map_cons, List.mem_cons, not_or] at h
      rw [put, if_neg (by rw [beq_iff_eq]; exact h.1), ih h.2, List.cons_append]

/-- A key that no other entry has is not among those before it. -/
theorem notMem_of_nodup {before after : OrderedMap α β} {pair : α × β}
    (h : (keys (before ++ pair :: after)).Nodup) : pair.1 ∉ keys before := by
  rw [keys, List.map_append, List.nodup_append] at h
  exact fun hmem => h.2.2 pair.1 hmem pair.1 (.head _) rfl

end OrderedMap

namespace Text

/-! ## Numerals -/

/-- A digit that is written is read as what it stands for. -/
theorem digitIn?_digitChar : ∀ base ≤ 16, ∀ d < base, digitIn? base d.digitChar = some d := by
  decide +kernel

variable {base : Nat}

/-- One more digit is worth its own value, and the others a base more each. -/
theorem digitsValue_concat (digits : List Char) (c : Char) :
    digitsValue base (digits ++ [c]) =
      digitsValue base digits * base + (digitIn? base c).getD 0 := by
  rw [digitsValue, List.foldl_append]
  rfl

/-- The digits of a number stand for it. -/
theorem digitsValue_toDigits (hlow : 1 < base) (hhigh : base ≤ 16) (n : Nat) :
    digitsValue base (Nat.toDigits base n) = n := by
  induction n using Nat.strong_induction_on with
  | h n ih =>
      rw [Nat.toDigits_eq_if hlow]
      split
      case isTrue h =>
        rw [← List.nil_append [n.digitChar], digitsValue_concat, digitIn?_digitChar base hhigh n h]
        exact (congrArg (· + n) (Nat.zero_mul base)).trans (Nat.zero_add n)
      case isFalse h =>
        have hdiv : n / base < n := Nat.div_lt_self (by omega) hlow
        have hmod : n % base < base := Nat.mod_lt n (by omega)
        rw [digitsValue_concat, ih _ hdiv, digitIn?_digitChar base hhigh _ hmod, Option.getD_some]
        exact Nat.div_add_mod' n base

/-- Numerals consist of digits of their base. -/
theorem isDigitIn_of_mem_toDigits (hlow : 1 < base) (hhigh : base ≤ 16) {n : Nat} {c : Char}
    (h : c ∈ Nat.toDigits base n) : isDigitIn base c = true := by
  have hdigit : ∀ d < base, isDigitIn base d.digitChar = true := fun d hd => by
    rw [isDigitIn, digitIn?_digitChar base hhigh d hd, Option.isSome_some]
  induction n using Nat.strong_induction_on with
  | h n ih =>
      rw [Nat.toDigits_eq_if hlow] at h
      split at h
      case isTrue hn => exact List.mem_singleton.mp h ▸ hdigit n hn
      case isFalse hn =>
        rcases List.mem_append.mp h with h | h
        · exact ih (n / base) (Nat.div_lt_self (by omega) hlow) h
        · exact List.mem_singleton.mp h ▸ hdigit _ (Nat.mod_lt n (by omega))

/-- The numeral of a number above zero does not start with a zero. -/
theorem head_toDigits_ne_zero {n : Nat} (h : 0 < n) :
    ∃ c digits, Nat.toDigits 10 n = c :: digits ∧ c ≠ '0' := by
  induction n using Nat.strong_induction_on with
  | h n ih =>
      rw [Nat.toDigits_eq_if (by decide)]
      split
      case isTrue hn =>
        refine ⟨n.digitChar, [], rfl, fun hzero => ?_⟩
        have := Nat.digitChar_eq_zero.mp hzero
        omega
      case isFalse hn =>
        obtain ⟨c, digits, hdigits, hc⟩ := ih (n / 10) (by omega) (by omega)
        exact ⟨c, digits ++ [(n % 10).digitChar], by rw [hdigits]; rfl, hc⟩

/-! ## Hexadecimal numerals of a fixed width -/

variable {width n : Nat}

/-- A hexadecimal numeral is worth its number, with zeros in front or not. -/
theorem digitsValue_hex (width n : Nat) : digitsValue 16 (hex width n) = n := by
  have hzeros : ∀ count, (List.replicate count '0').foldl
      (fun n c => n * 16 + (digitIn? 16 c).getD 0) 0 = 0 := by
    intro count
    induction count with
    | zero => rfl
    | succ count ih => exact ih
  rw [hex, digitsValue, List.foldl_append, hzeros]
  exact digitsValue_toDigits (by decide) (by decide) n

/-- It consists of hexadecimal digits. -/
theorem isDigitIn_of_mem_hex {c : Char} (h : c ∈ hex width n) : isDigitIn 16 c = true := by
  rcases List.mem_append.mp h with h | h
  · exact (List.mem_replicate.mp h).2 ▸ by decide
  · exact isDigitIn_of_mem_toDigits (by decide) (by decide) h

/-- It has the width that is asked for, if its number has room there. -/
theorem length_hex (hwidth : 0 < width) (h : n < 16 ^ width) : (hex width n).length = width := by
  have hle := (Nat.length_toDigits_le_iff (by decide) hwidth).mpr h
  rw [hex, List.length_append, List.length_replicate]
  omega

end Text

namespace Json

/-! ## Texts -/

variable {opening rest : List Char} {codes : Text.Codes}

/-- The characters of an escape sequence that has been read are passed over. -/
theorem readText_skip (taken : List Char) :
    readText opening taken.length codes (taken ++ rest) = readText opening 0 codes rest := by
  induction taken with
  | nil => rfl
  | cons c taken ih => rw [List.length_cons, List.cons_append, readText, ih]

/-- After an escape the reading of a text goes on with the character that it stands for. -/
theorem readText_escape (taken : List Char) {code : Nat}
    (h : readEscape opening (taken ++ rest) = .ok (code, taken.length)) :
    readText opening 0 codes ('\\' :: (taken ++ rest)) =
      readText opening 0 (code :: codes) rest := by
  rw [readText, if_neg (by decide), if_pos (by decide), h]
  exact readText_skip taken

/-- Four hexadecimal digits are one unit. -/
theorem unit?_append {digits : List Char} (hlength : digits.length = 4)
    (hdigits : ∀ c ∈ digits, Text.isDigitIn 16 c = true) :
    unit? (digits ++ rest) = some (Text.digitsValue 16 digits) := by
  obtain ⟨a, b, c, d, rfl⟩ : ∃ a b c d, digits = [a, b, c, d] := by
    match digits, hlength with
    | [a, b, c, d], _ => exact ⟨a, b, c, d, rfl⟩
  exact if_pos (List.all_eq_true.mpr hdigits)

/-- Four hexadecimal digits stand for the unit that they were written for. -/
theorem unit?_hex {unit : Nat} (h : unit < 0x10000) :
    unit? (Text.hex 4 unit ++ rest) = some unit := by
  rw [unit?_append (Text.length_hex (by decide) h) fun _ => Text.isDigitIn_of_mem_hex,
    Text.digitsValue_hex]

/-- A unit that is no first half stands for itself. -/
theorem readUnits_hex {unit : Nat} (h : unit < 0x10000) (hhalf : Text.isHighHalf unit = false)
    (hrest : rest ≠ []) : readUnits (Text.hex 4 unit ++ rest) = .ok (unit, 4) := by
  have hlength : (Text.hex 4 unit).length = 4 := Text.length_hex (by decide) h
  have hpos := List.length_pos_iff.mpr hrest
  rw [readUnits, if_neg (by rw [List.length_append]; omega), unit?_hex h]
  simp only [List.drop_left' hlength, hhalf]
  split <;> rfl

/-- Two units that belong together are read as one code point. -/
theorem readUnits_pair {high low : Nat} (hhigh : 0xd800 ≤ high ∧ high ≤ 0xdbff)
    (hlow : 0xdc00 ≤ low ∧ low ≤ 0xdfff) (hrest : rest ≠ []) :
    readUnits (Text.hex 4 high ++ '\\' :: 'u' :: (Text.hex 4 low ++ rest)) =
      .ok (0x10000 + (high - 0xd800) * 0x400 + (low - 0xdc00), 10) := by
  have hlength : (Text.hex 4 high).length = 4 := Text.length_hex (by decide) (by omega)
  have hlength' : (Text.hex 4 low).length = 4 := Text.length_hex (by decide) (by omega)
  have hpos := List.length_pos_iff.mpr hrest
  have hhalf : Text.isHighHalf high = true := by simp [Text.isHighHalf, hhigh]
  have hhalf' : Text.isLowHalf low = true := by simp [Text.isLowHalf, hlow]
  have hmore : 5 ≤ (Text.hex 4 low ++ rest).length := by rw [List.length_append]; omega
  rw [readUnits, if_neg (by simp only [List.length_append, List.length_cons]; omega),
    unit?_hex (by omega)]
  simp only [List.drop_left' hlength]
  rw [if_pos ⟨hhalf, hmore⟩, unit?_hex (by omega)]
  simp only [hhalf', if_true]

/-- An escape with a `u` is as long as its units. -/
theorem readEscape_unit {digits : List Char} {code taken : Nat}
    (h : readUnits digits = .ok (code, taken)) :
    readEscape opening ('u' :: digits) = .ok (code, taken + 1) := by
  rw [readEscape, h, Nat.add_comm taken 1]
  rfl

/-- An escaped unit comes back. -/
theorem readText_unit {unit : Nat} (h : unit < 0x10000) (hhalf : Text.isHighHalf unit = false)
    (hrest : rest ≠ []) :
    readText opening 0 codes (unitEscape unit ++ rest) =
      readText opening 0 (unit :: codes) rest := by
  rw [unitEscape, List.cons_append, readText_escape ('u' :: Text.hex 4 unit)]
  rw [List.cons_append, readEscape_unit (readUnits_hex h hhalf hrest), List.length_cons,
    Text.length_hex (by decide) h]

/-- Two escaped halves come back as one character. -/
theorem readText_pair {high low : Nat} (hhigh : 0xd800 ≤ high ∧ high ≤ 0xdbff)
    (hlow : 0xdc00 ≤ low ∧ low ≤ 0xdfff) (hrest : rest ≠ []) :
    readText opening 0 codes (unitEscape high ++ unitEscape low ++ rest) =
      readText opening 0 ((0x10000 + (high - 0xd800) * 0x400 + (low - 0xdc00)) :: codes) rest := by
  have hlength : (Text.hex 4 high).length = 4 := Text.length_hex (by decide) (by omega)
  have hlength' : (Text.hex 4 low).length = 4 := Text.length_hex (by decide) (by omega)
  have htaken : readEscape opening
      (('u' :: Text.hex 4 high ++ '\\' :: 'u' :: Text.hex 4 low) ++ rest) =
      .ok (0x10000 + (high - 0xd800) * 0x400 + (low - 0xdc00),
        ('u' :: Text.hex 4 high ++ '\\' :: 'u' :: Text.hex 4 low).length) := by
    rw [List.append_assoc, List.cons_append, List.cons_append, List.cons_append,
      readEscape_unit (readUnits_pair hhigh hlow hrest)]
    simp only [List.length_cons, List.length_append, hlength, hlength']
  exact readText_escape _ htaken

/-- A short escape comes back. -/
theorem readEscape_short {letter : Char} {code : Nat} (hletter : letter ≠ 'u')
    (h : simpleEscape? letter = some code) :
    readEscape opening (letter :: rest) = .ok (code, 1) := by
  unfold readEscape
  split
  case h_1 heq => cases heq
  case h_2 heq => exact absurd (List.cons.inj heq).1 hletter
  case h_3 heq =>
    obtain ⟨rfl, rfl⟩ := List.cons.inj heq
    rw [h]

/-- The letters of the short escape sequences. -/
def shortLetters : List Char := ['"', '\\', 'n', 'r', 't', 'b', 'f']

/-- A code point is written as a short escape sequence, as itself, as a unit, or as a pair of
units. -/
theorem escapeCode_cases (code : Nat) :
    (∃ letter ∈ shortLetters, simpleEscape? letter = some code ∧
        escapeCode code = ['\\', letter]) ∨
      (0x20 ≤ code ∧ code ≤ 0x7e ∧ code ≠ '"'.toNat ∧ code ≠ '\\'.toNat ∧
        escapeCode code = [Char.ofNat code]) ∨
      (code < 0x10000 ∧ escapeCode code = unitEscape code) ∨
      (0x10000 ≤ code ∧ escapeCode code = unitEscape (0xd800 + (code - 0x10000) / 0x400) ++
        unitEscape (0xdc00 + (code - 0x10000) % 0x400)) := by
  -- the codes with a short escape sequence are told apart first, as the printer does
  by_cases hquote : code = '"'.toNat
  · exact .inl ⟨'"', by decide, hquote ▸ rfl, hquote ▸ rfl⟩
  by_cases hslash : code = '\\'.toNat
  · exact .inl ⟨'\\', by decide, hslash ▸ rfl, hslash ▸ rfl⟩
  by_cases hfeed : code = '\n'.toNat
  · exact .inl ⟨'n', by decide, hfeed ▸ rfl, hfeed ▸ rfl⟩
  by_cases hreturn : code = '\r'.toNat
  · exact .inl ⟨'r', by decide, hreturn ▸ rfl, hreturn ▸ rfl⟩
  by_cases htab : code = '\t'.toNat
  · exact .inl ⟨'t', by decide, htab ▸ rfl, htab ▸ rfl⟩
  by_cases hback : code = 0x08
  · exact .inl ⟨'b', by decide, hback ▸ rfl, hback ▸ rfl⟩
  by_cases hform : code = 0x0c
  · exact .inl ⟨'f', by decide, hform ▸ rfl, hform ▸ rfl⟩
  rw [escapeCode, if_neg hquote, if_neg hslash, if_neg hfeed, if_neg hreturn, if_neg htab,
    if_neg hback, if_neg hform]
  refine .inr ?_
  by_cases hprint : 0x20 ≤ code ∧ code ≤ 0x7e
  · exact .inl ⟨hprint.1, hprint.2, hquote, hslash, if_pos hprint⟩
  rw [if_neg hprint]
  refine .inr ?_
  by_cases hunit : code < 0x10000
  · exact .inl ⟨hunit, if_pos hunit⟩
  · exact .inr ⟨by omega, if_neg hunit⟩

/-- What stands for a code point in a text is read as that code point.  Something has to follow,
as the closing quote does. -/
theorem readText_escapeCode {code : Nat} (hcode : code.isValidChar) (hrest : rest ≠ []) :
    readText opening 0 codes (escapeCode code ++ rest) =
      readText opening 0 (code :: codes) rest := by
  obtain ⟨letter, hletter, hsimple, htext⟩ | ⟨hlow, -, hquote, hslash, htext⟩ | ⟨hunit, htext⟩ |
    ⟨hlarge, htext⟩ := escapeCode_cases code
  all_goals rw [htext]
  · have hne : letter ≠ 'u' := by
      rintro rfl
      exact absurd hletter (by decide)
    exact readText_escape [letter] (readEscape_short hne hsimple)
  · have hnat : (Char.ofNat code).toNat = code := by rw [Char.toNat_ofNat, if_pos hcode]
    have hne : ∀ c : Char, code ≠ c.toNat → ¬ (Char.ofNat code == c) = true := fun c hc heq =>
      hc (by rw [← hnat, beq_iff_eq.mp heq])
    rw [List.singleton_append, readText, if_neg (hne _ hquote), if_neg (hne _ hslash), hnat,
      if_neg (by omega)]
  · -- A character is no half of a pair, so that the reader does not look for the other half.
    have hhalf : Text.isHighHalf code = false := by
      simp only [Text.isHighHalf, Bool.and_eq_false_iff, decide_eq_false_iff_not]
      rcases hcode with h | h <;> omega
    exact readText_unit hunit hhalf hrest
  · have hbound : code - 0x10000 < 0x100000 := by
      rcases hcode with h | h <;> omega
    have hback : 0x10000 + (0xd800 + (code - 0x10000) / 0x400 - 0xd800) * 0x400 +
        (0xdc00 + (code - 0x10000) % 0x400 - 0xdc00) = code := by omega
    rw [readText_pair (by omega) (by omega) hrest, hback]

/-- A text is read back up to its closing quote. -/
theorem readText_quote (text : Text.Codes) (hcodes : ∀ code ∈ text, code.isValidChar) :
    readText opening 0 codes (text.flatMap escapeCode ++ '"' :: rest) =
      .ok (codes.reverse ++ text, rest) := by
  induction text generalizing codes with
  | nil => exact congrArg (fun text => Except.ok (text, rest)) (List.append_nil _).symm
  | cons code text ih =>
      rw [List.flatMap_cons, List.append_assoc,
        readText_escapeCode (hcodes code List.mem_cons_self) (by simp),
        ih fun other hother => hcodes other (List.mem_cons_of_mem _ hother), List.reverse_cons,
        List.append_assoc, List.singleton_append]

/-! ## Numbers -/

/-- What follows cannot belong to a number. -/
def Ends (rest : List Char) : Prop :=
  ∀ c ∈ rest.head?, c.isDigit = false ∧ c ≠ '.' ∧ c ≠ 'e' ∧ c ≠ 'E'

/-- The digits of a numeral end where the numeral does. -/
theorem takeWhile_isDigit (hrest : Ends rest) (n : Nat) :
    (Nat.toDigits 10 n ++ rest).takeWhile Char.isDigit = Nat.toDigits 10 n := by
  rw [List.takeWhile_append_of_pos fun c => Nat.isDigit_of_mem_toDigits (by decide) (by decide)]
  cases rest with
  | nil => exact List.append_nil _
  | cons c rest =>
      rw [List.takeWhile_cons_of_neg (by rw [(hrest c rfl).1]; decide), List.append_nil]

/-- No digit of a number is lost, and none is taken from what follows. -/
theorem wholeDigits?_toDigits (hrest : Ends rest) (n : Nat) :
    wholeDigits? (Nat.toDigits 10 n ++ rest) = some (Nat.toDigits 10 n, rest) := by
  by_cases hn : n = 0
  · subst hn
    rfl
  · -- The reader takes a leading zero alone, but only zero has one.
    obtain ⟨c, digits, hdigits, hc⟩ := Text.head_toDigits_ne_zero (Nat.pos_of_ne_zero hn)
    have htake := takeWhile_isDigit hrest n
    unfold wholeDigits?
    split
    case h_1 heq =>
      rw [hdigits] at heq
      exact absurd (List.cons.inj heq).1 hc
    case h_2 =>
      simp only [htake]
      rw [if_neg (by rw [hdigits]; simp), List.drop_left]

/-- An integer has no fraction. -/
theorem fractionDigits_of_ends (hrest : Ends rest) : fractionDigits rest = ([], rest) := by
  unfold fractionDigits
  split
  case h_1 more => exact absurd rfl (hrest '.' rfl).2.1
  case h_2 => rfl

/-- It has no exponent. -/
theorem exponentPart_of_ends (hrest : Ends rest) : exponentPart rest = (none, rest) := by
  cases rest with
  | nil => rfl
  | cons c rest =>
      obtain ⟨-, -, hlower, hupper⟩ := hrest c rfl
      unfold exponentPart
      exact if_neg (by simp [hlower, hupper])

/-- A numeral of moderate length is read as its number. -/
theorem readMagnitude_toDigits (hrest : Ends rest) (negative : Bool) {n : Nat}
    (hshort : (Nat.toDigits 10 n).length ≤ Digits.limit) :
    readMagnitude negative (Nat.toDigits 10 n ++ rest) =
      .ok (.int (if negative then -(n : Int) else n), rest) := by
  have hvalue : Text.digitsValue 10 (Nat.toDigits 10 n) = n :=
    Text.digitsValue_toDigits (by decide) (by decide) n
  rw [readMagnitude, wholeDigits?_toDigits hrest]
  simp only [fractionDigits_of_ends hrest, exponentPart_of_ends hrest, ofDigits, if_pos hshort,
    hvalue]
  rfl

/-- No word stands where a numeral does. -/
theorem not_isPrefixOf_words {c : Char} (hc : c.isDigit = true) (more : List Char) :
    ∀ pair ∈ words, pair.1.isPrefixOf (c :: more) = false ∧
      pair.1.isPrefixOf ('-' :: c :: more) = false := by
  have hne : ∀ letter : Char, letter.isDigit = false → (letter == c) = false := by
    intro letter hletter
    rw [beq_eq_false_iff_ne]
    rintro rfl
    exact absurd hc (by rw [hletter]; decide)
  simp [words, List.isPrefixOf, hne]

/-- What is not one of the three words is a number. -/
theorem readScalar_of_not_word {text : List Char} {found : Json × List Char}
    (hwords : ∀ pair ∈ words, pair.1.isPrefixOf text = false) (h : readNumber text = .ok found) :
    readScalar text = .ok found := by
  unfold readScalar
  split
  case h_1 word value hfind =>
    have hfound := List.find?_some hfind
    have hword : word.isPrefixOf text = true := hfound
    rw [hwords _ (List.mem_of_find?_eq_some hfind)] at hword
    cases hword
  case h_2 =>
    rw [h]
    rfl

/-- The numeral of an integer: its digits, after a minus sign if it is negative. -/
theorem toList_toString (value : Int) : (toString value).toList =
    (if value < 0 then ['-'] else []) ++ Nat.toDigits 10 value.natAbs := by
  rw [Int.toString_eq_repr]
  cases value with
  | ofNat n => exact Nat.toList_repr
  | negSucc n =>
      rw [Int.repr, String.toList_append, Nat.toList_repr, if_pos (Int.negSucc_lt_zero n)]
      rfl

/-- An integer that can be written is read from what is written. -/
theorem readScalar_toString (hrest : Ends rest) {value : Int}
    (hwritable : Digits.isWritable value = true) :
    readScalar ((toString value).toList ++ rest) = .ok (.int value, rest) := by
  obtain ⟨c, digits, hdigits⟩ : ∃ c digits, Nat.toDigits 10 value.natAbs = c :: digits :=
    List.exists_cons_of_ne_nil Nat.toDigits_ne_nil
  have hc : c.isDigit = true :=
    Nat.isDigit_of_mem_toDigits (by decide) (by decide) (hdigits ▸ List.mem_cons_self)
  have hwords := not_isPrefixOf_words hc (digits ++ rest)
  have hshort : (Nat.toDigits 10 value.natAbs).length ≤ Digits.limit :=
    decide_eq_true_eq.mp hwritable
  rw [toList_toString]
  -- the sign is taken off first; what is left starts with a digit
  by_cases hvalue : value < 0
  · rw [if_pos hvalue]
    refine readScalar_of_not_word ?_ ?_
    · rw [hdigits]
      exact fun pair hpair => (hwords pair hpair).2
    -- after a sign no word can come, as the words start with letters
    · show readMagnitude true (Nat.toDigits 10 value.natAbs ++ rest) = _
      rw [readMagnitude_toDigits hrest true hshort, if_pos rfl,
        Int.ofNat_natAbs_of_nonpos hvalue.le, neg_neg]
  · rw [if_neg hvalue, List.nil_append]
    refine readScalar_of_not_word ?_ ?_
    · rw [hdigits]
      exact fun pair hpair => (hwords pair hpair).1
    -- a digit is no sign
    · have hminus : readNumber (Nat.toDigits 10 value.natAbs ++ rest) =
          readMagnitude false (Nat.toDigits 10 value.natAbs ++ rest) := by
        rw [hdigits]
        unfold readNumber
        split
        case h_1 heq => exact absurd hc ((List.cons.inj heq).1 ▸ by decide)
        case h_2 => rfl
      rw [hminus, readMagnitude_toDigits hrest false hshort, if_neg (by decide),
        Int.natAbs_of_nonneg (by omega)]

/-! ## Gaps -/

/-- Nothing is skipped before a character that is no gap. -/
theorem skipGap_cons {c : Char} (hc : isGap c = false) : skipGap (c :: rest) = c :: rest :=
  List.dropWhile_cons_of_neg (by rw [hc]; decide)

/-- New lines and their indentation are skipped. -/
theorem skipGap_newline (level : Nat) : skipGap (newline level ++ rest) = skipGap rest := by
  refine List.dropWhile_append_of_pos ?_
  rintro c (_ | ⟨_, hc⟩)
  · decide
  · exact (List.mem_replicate.mp hc).2 ▸ by decide

/-- Values end before a new line. -/
theorem ends_newline (level : Nat) : Ends (newline level ++ rest) := by
  rintro c ⟨⟩
  decide

theorem ends_comma : Ends (',' :: rest) := by
  rintro c ⟨⟩
  decide

/-! ## Values -/

/-- Wherever the text stands, the reader takes it, and nothing after it, for the value.  A value
behind a gap is found because no gap starts it, and one in an array because it does not look like
the end of the array. -/
structure Reads (text : List Char) (value : Json) : Prop where
  head : ∃ c more, text = c :: more ∧ isGap c = false ∧ c ≠ ']'
  read : ∀ {rounds : Nat} {rest : List Char}, Ends rest → 2 * text.length < rounds →
    readValue rounds (text ++ rest) = .ok (value, rest)

variable {text : List Char} {value : Json}

/-- A value starts with something that is not skipped. -/
theorem Reads.skipGap_eq (h : Reads text value) : skipGap (text ++ rest) = text ++ rest := by
  obtain ⟨c, more, rfl, hgap, -⟩ := h.head
  exact skipGap_cons hgap

/-- What is neither a text nor an array nor an object is read by its first character. -/
theorem Reads.of_scalar {c : Char} {more : List Char} (hc : (c.isAlphanum || c == '-') = true)
    (h : ∀ {rest}, Ends rest → readScalar (c :: more ++ rest) = .ok (value, rest)) :
    Reads (c :: more) value := by
  -- neither quotes nor brackets nor blanks are among those characters
  have hne : ∀ other : Char, (other.isAlphanum || other == '-') = false → c ≠ other := by
    rintro other hother rfl
    rw [hc] at hother
    cases hother
  have hgap : isGap c = false := by
    simp [isGap, hne ' ' (by decide), hne '\t' (by decide), hne '\n' (by decide),
      hne '\r' (by decide)]
  refine ⟨⟨c, more, rfl, hgap, hne ']' (by decide)⟩, ?_⟩
  intro rounds rest hrest hrounds
  obtain ⟨rounds, rfl⟩ : ∃ r, rounds = r + 1 := ⟨rounds - 1, by omega⟩
  rw [← h hrest]
  unfold readValue
  split
  case h_1 heq => exact absurd (List.cons.inj heq).1 (hne '"' (by decide))
  case h_2 heq => exact absurd (List.cons.inj heq).1 (hne '\x7b' (by decide))
  case h_3 heq => exact absurd (List.cons.inj heq).1 (hne '[' (by decide))
  case h_4 => rfl

theorem reads_null : Reads "null".toList .null :=
  .of_scalar (by decide) fun _ => rfl

/-- The words for truth values are read. -/
theorem reads_bool (b : Bool) : Reads (if b then "true" else "false").toList (.bool b) := by
  cases b with
  | false => exact .of_scalar (by decide) fun _ => rfl
  | true => exact .of_scalar (by decide) fun _ => rfl

/-- Integers are read if they can be written. -/
theorem reads_int {n : Int} (hwritable : Digits.isWritable n = true) :
    Reads (toString n).toList (.int n) := by
  have hscalar := fun {rest} (hrest : Ends rest) => readScalar_toString hrest hwritable
  obtain ⟨d, digits, hdigits⟩ : ∃ d digits, Nat.toDigits 10 n.natAbs = d :: digits :=
    List.exists_cons_of_ne_nil Nat.toDigits_ne_nil
  have hd : d.isDigit = true :=
    Nat.isDigit_of_mem_toDigits (by decide) (by decide) (hdigits ▸ List.mem_cons_self)
  rw [toList_toString, hdigits] at hscalar ⊢
  by_cases hn : n < 0
  · rw [if_pos hn] at hscalar ⊢
    exact .of_scalar (by decide) hscalar
  · rw [if_neg hn] at hscalar ⊢
    exact .of_scalar (by simp [Char.isAlphanum, hd]) hscalar

/-- Texts of characters are read. -/
theorem reads_str {text : Text.Codes} (hcodes : ∀ code ∈ text, code.isValidChar) :
    Reads (quote text) (.str text) := by
  refine ⟨⟨'"', _, rfl, by decide, by decide⟩, ?_⟩
  intro rounds rest hrest hrounds
  obtain ⟨rounds, rfl⟩ : ∃ r, rounds = r + 1 := ⟨rounds - 1, by omega⟩
  rw [quote, List.cons_append, List.append_assoc, List.singleton_append, readValue,
    readText_quote text hcodes]
  rfl

/-! ### Arrays -/

variable {level : Nat}

/-- The items of an array are read one after the other, up to the closing bracket. -/
theorem readItems_pretty {item : Json} {items : List Json} {rounds outer : Nat}
    (hreads : ∀ value ∈ item :: items, Reads (pretty level value) value)
    (hrounds : 2 * (pretty level item ++ prettyItems level items).length + 1 < rounds) :
    readItems rounds (pretty level item ++ (prettyItems level items ++
      (newline outer ++ ']' :: rest))) = .ok (item :: items, rest) := by
  -- An item takes one round, and with its comma two characters at least: the bound stays true.
  induction items generalizing item rounds with
  | nil =>
      obtain ⟨rounds, rfl⟩ : ∃ r, rounds = r + 1 := ⟨rounds - 1, by omega⟩
      have hclose : skipGap (newline outer ++ ']' :: rest) = ']' :: rest := by
        rw [skipGap_newline, skipGap_cons (by decide)]
      rw [prettyItems, List.append_nil] at hrounds
      rw [prettyItems, List.nil_append, readItems,
        (hreads item (.head _)).read (ends_newline outer) (by omega)]
      simp only [bind, Except.bind, hclose]
  | cons next items ih =>
      obtain ⟨rounds, rfl⟩ : ∃ r, rounds = r + 1 := ⟨rounds - 1, by omega⟩
      have hcomma : ∀ more, skipGap (',' :: more) = ',' :: more := fun _ => skipGap_cons (by decide)
      rw [prettyItems] at hrounds ⊢
      simp only [List.length_append, List.length_cons] at hrounds
      rw [List.cons_append, readItems, (hreads item (.head _)).read ends_comma (by omega)]
      simp only [bind, Except.bind, hcomma, List.append_assoc, skipGap_newline,
        (hreads next (.tail _ (.head _))).skipGap_eq]
      rw [ih (fun value hvalue => hreads value (.tail _ hvalue))
        (by rw [List.length_append]; omega)]

/-- Arrays are read if their items are. -/
theorem reads_arr {items : List Json}
    (hreads : ∀ item ∈ items, Reads (pretty (level + 1) item) item) :
    Reads (pretty level (.arr items)) (.arr items) := by
  cases items with
  | nil =>
      refine ⟨⟨'[', _, rfl, by decide, by decide⟩, ?_⟩
      intro rounds rest hrest hrounds
      obtain ⟨rounds, rfl⟩ : ∃ r, rounds = r + 1 := ⟨rounds - 1, by omega⟩
      rfl
  | cons item items =>
      rw [pretty]
      refine ⟨⟨'[', _, rfl, by decide, by decide⟩, ?_⟩
      intro rounds rest hrest hrounds
      obtain ⟨rounds, rfl⟩ : ∃ r, rounds = r + 1 := ⟨rounds - 1, by omega⟩
      have hitem := hreads item (.head _)
      -- The first item does not start with the bracket that would make the array empty.
      obtain ⟨c, more, htext, -, hc⟩ := hitem.head
      simp only [List.length_append, List.length_cons] at hrounds
      simp only [List.cons_append, List.append_assoc, List.nil_append, readValue, skipGap_newline,
        hitem.skipGap_eq]
      split
      case h_1 heq =>
        rw [htext] at heq
        exact absurd (List.cons.inj heq).1 hc
      case h_2 =>
        rw [readItems_pretty hreads (by rw [List.length_append]; omega)]
        rfl

/-! ### Objects -/

theorem skipGap_quote (text : Text.Codes) : skipGap (quote text ++ rest) = quote text ++ rest :=
  skipGap_cons (by decide)

/-- One field is read and put behind those before it; what follows it decides whether there are
more. -/
theorem readFields_field {before : List (Text.Codes × Json)} {name : Text.Codes} {after : List Char}
    {rounds : Nat} (hcodes : ∀ code ∈ name, code.isValidChar) (hreads : Reads text value)
    (hafter : Ends after) (hrounds : 2 * text.length < rounds) :
    (∀ rest, skipGap after = '\x7d' :: rest →
      readFields (rounds + 1) before (quote name ++ ':' :: ' ' :: (text ++ after)) =
        .ok (OrderedMap.put name value before, rest)) ∧
    (∀ rest, skipGap after = ',' :: rest →
      readFields (rounds + 1) before (quote name ++ ':' :: ' ' :: (text ++ after)) =
        readFields rounds (OrderedMap.put name value before) (skipGap rest)) := by
  have hcolon : ∀ more, skipGap (':' :: more) = ':' :: more := fun _ => skipGap_cons (by decide)
  have hblank : ∀ more, skipGap (' ' :: more) = skipGap more :=
    fun _ => List.dropWhile_cons_of_pos (by decide)
  -- The two outcomes have everything in common up to the character after the value.
  constructor
  all_goals
    intro rest hrest
    rw [quote, List.cons_append, List.append_assoc, List.singleton_append, readFields,
      readText_quote name hcodes]
    simp only [bind, Except.bind, hcolon, hblank, hreads.skipGap_eq, hreads.read hafter hrounds,
      hrest, List.reverse_nil, List.nil_append]

/-- The fields of an object are read one after the other and put behind those before them, up to the
closing brace. -/
theorem readFields_pretty {before : List (Text.Codes × Json)} {field : Text.Codes × Json}
    {fields : List (Text.Codes × Json)} {rounds outer : Nat}
    (hnames : (OrderedMap.keys (before ++ field :: fields)).Nodup)
    (hcodes : ∀ other ∈ field :: fields, ∀ code ∈ other.1, code.isValidChar)
    (hreads : ∀ other ∈ field :: fields, Reads (pretty level other.2) other.2)
    (hrounds : 2 * (pretty level field.2 ++ prettyFields level fields).length + 1 < rounds) :
    readFields rounds before (quote field.1 ++ ':' :: ' ' :: (pretty level field.2 ++
      (prettyFields level fields ++ (newline outer ++ '\x7d' :: rest)))) =
      .ok (before ++ field :: fields, rest) := by
  -- by induction on the fields after the first one; what has been read grows in front
  induction fields generalizing before field rounds with
  | nil =>
      obtain ⟨rounds, rfl⟩ : ∃ r, rounds = r + 1 := ⟨rounds - 1, by omega⟩
      -- after the last field there is the closing brace
      have hclose : skipGap (newline outer ++ '\x7d' :: rest) = '\x7d' :: rest := by
        rw [skipGap_newline, skipGap_cons (by decide)]
      rw [prettyFields, List.append_nil] at hrounds
      rw [prettyFields, List.nil_append, (readFields_field (hcodes _ (.head _)) (hreads _ (.head _))
        (ends_newline outer) (by omega)).1 rest hclose,
        OrderedMap.put_of_notMem (OrderedMap.notMem_of_nodup hnames)]
  | cons next fields ih =>
      obtain ⟨rounds, rfl⟩ : ∃ r, rounds = r + 1 := ⟨rounds - 1, by omega⟩
      rw [prettyFields] at hrounds ⊢
      -- each round has at least as many characters left as rounds
      simp only [List.length_append, List.length_cons] at hrounds
      rw [List.cons_append, (readFields_field (hcodes _ (.head _)) (hreads _ (.head _)) ends_comma
        (by omega)).2 _ (skipGap_cons (by decide)),
        OrderedMap.put_of_notMem (OrderedMap.notMem_of_nodup hnames)]
      simp only [List.append_assoc, skipGap_newline, skipGap_quote, List.cons_append,
        List.nil_append]
      rw [ih (by rwa [List.append_assoc]) (fun other hother => hcodes other (.tail _ hother))
        (fun other hother => hreads other (.tail _ hother)) (by rw [List.length_append]; omega),
        List.append_assoc, List.singleton_append]

/-- Objects are read if their names are different texts and their values are read. -/
theorem reads_obj {fields : List (Text.Codes × Json)} (hnames : (OrderedMap.keys fields).Nodup)
    (hcodes : ∀ field ∈ fields, ∀ code ∈ field.1, code.isValidChar)
    (hreads : ∀ field ∈ fields, Reads (pretty (level + 1) field.2) field.2) :
    Reads (pretty level (.obj fields)) (.obj fields) := by
  cases fields with
  | nil =>
      refine ⟨⟨'\x7b', _, rfl, by decide, by decide⟩, ?_⟩
      intro rounds rest hrest hrounds
      obtain ⟨rounds, rfl⟩ : ∃ r, rounds = r + 1 := ⟨rounds - 1, by omega⟩
      rfl
  | cons field fields =>
      rw [pretty]
      refine ⟨⟨'\x7b', _, rfl, by decide, by decide⟩, ?_⟩
      intro rounds rest hrest hrounds
      obtain ⟨rounds, rfl⟩ : ∃ r, rounds = r + 1 := ⟨rounds - 1, by omega⟩
      simp only [List.length_append, List.length_cons] at hrounds
      simp only [List.cons_append, List.append_assoc, List.nil_append, readValue, skipGap_newline,
        skipGap_quote]
      -- the name of the first field rules out the empty object
      split
      case h_1 heq => exact absurd (List.cons.inj heq).1 (by decide)
      case h_2 =>
        rw [readFields_pretty hnames hcodes hreads (by rw [List.length_append]; omega)]
        rfl

/-! ## The whole text -/

/-- The values that come back as they were. -/
inductive Writable : Json → Prop
  | null : Writable .null
  | bool (b : Bool) : Writable (.bool b)
  | int {n : Int} (hshort : Digits.isWritable n = true) : Writable (.int n)
  | str {text : Text.Codes} (hcodes : ∀ code ∈ text, code.isValidChar) : Writable (.str text)
  | arr {items : List Json} (hitems : ∀ item ∈ items, Writable item) : Writable (.arr items)
  | obj {fields : List (Text.Codes × Json)} (hnames : (OrderedMap.keys fields).Nodup)
      (hcodes : ∀ field ∈ fields, ∀ code ∈ field.1, code.isValidChar)
      (hvalues : ∀ field ∈ fields, Writable field.2) : Writable (.obj fields)

/-- What can be written is read at every level of indentation. -/
theorem Writable.reads (h : Writable value) (level : Nat) : Reads (pretty level value) value := by
  -- The parts of a value are printed one level further in.
  induction h generalizing level with
  | null => exact reads_null
  | bool b => exact reads_bool b
  | int hshort => exact reads_int hshort
  | str hcodes => exact reads_str hcodes
  | arr hitems ih => exact reads_arr fun item hitem => ih item hitem (level + 1)
  | obj hnames hcodes hvalues ih =>
      exact reads_obj hnames hcodes fun field hfield => ih field hfield (level + 1)

/-- Items can be written together if each of them can. -/
theorem areWritable_iff {items : List Json} :
    areWritable items = true ↔ ∀ item ∈ items, item.isWritable = true := by
  induction items with
  | nil => simp [areWritable]
  | cons item items ih => rw [areWritable, Bool.and_eq_true, ih, List.forall_mem_cons]

theorem haveWritable_iff {fields : List (Text.Codes × Json)} :
    haveWritable fields = true ↔ ∀ field ∈ fields, field.2.isWritable = true := by
  induction fields with
  | nil => simp [haveWritable]
  | cons field fields ih => rw [haveWritable, Bool.and_eq_true, ih, List.forall_mem_cons]

/-- What comes back can be written. -/
theorem Writable.isWritable (h : Writable value) : value.isWritable = true := by
  induction h with
  | null | bool _ | str _ => rw [Json.isWritable] <;> nofun
  | int hshort => rwa [Json.isWritable]
  | arr _ ih => rwa [Json.isWritable, areWritable_iff]
  | obj _ _ _ ih => rwa [Json.isWritable, haveWritable_iff]

/-- A value has a text, and the text, with a line feed at its end, is read as the value. -/
theorem exists_render (h : Writable value) :
    value.render = .ok (pretty 0 value) ∧ read (pretty 0 value ++ ['\n']) = .ok value := by
  -- The line feed at the end gives the reader two rounds more than the value needs.
  have hreads := h.reads 0
  have hends : Ends ['\n'] := @ends_newline [] 0
  refine ⟨Digits.writing_eq_ok.mpr ⟨h.isWritable, rfl⟩, ?_⟩
  rw [read, hreads.skipGap_eq, hreads.read hends (by rw [List.length_append]; omega)]
  rfl

/-- A value has no text if one of its integers has too many digits. -/
theorem render_eq_error_iff {excess : Digits.Excess} :
    value.render = .error excess ↔ value.isWritable = false ∧ excess = .unwritten :=
  Digits.writing_eq_error

/-! ## The characters of a text -/

/-- Line feeds and what ASCII can print, in which alone texts are written. -/
def isPlain (c : Char) : Bool := c == '\n' || (0x20 ≤ c.toNat && c.toNat ≤ 0x7e)

/-- Printable characters are plain. -/
theorem isPlain_of_range {c : Char} (hlow : 0x20 ≤ c.toNat) (hhigh : c.toNat ≤ 0x7e) :
    isPlain c = true := by
  simp [isPlain, hlow, hhigh]

/-- So are hexadecimal digits. -/
theorem isPlain_of_isDigitIn {c : Char} (h : Text.isDigitIn 16 c = true) : isPlain c = true := by
  have hrange : ∀ low high : Char, 0x20 ≤ low.toNat → high.toNat ≤ 0x7e → low ≤ c ∧ c ≤ high →
      isPlain c = true := fun low high hlow hhigh hc =>
    isPlain_of_range (hlow.trans (Char.le_def.mp hc.1)) (le_trans (Char.le_def.mp hc.2) hhigh)
  rw [Text.isDigitIn, Text.digitIn?] at h
  by_cases hdigit : '0' ≤ c ∧ c ≤ '9'
  · exact hrange '0' '9' (by decide) (by decide) hdigit
  by_cases hlower : 'a' ≤ c ∧ c ≤ 'f'
  · exact hrange 'a' 'f' (by decide) (by decide) hlower
  by_cases hupper : 'A' ≤ c ∧ c ≤ 'F'
  · exact hrange 'A' 'F' (by decide) (by decide) hupper
  · rw [if_neg hdigit, if_neg hlower, if_neg hupper, if_neg (lt_irrefl 16)] at h
    cases h

/-- So are new lines. -/
theorem all_isPlain_newline (level : Nat) : (newline level).all isPlain = true := by
  rw [newline, List.all_cons, List.all_eq_true.mpr fun c hc => (List.mem_replicate.mp hc).2 ▸ rfl]
  rfl

/-- So are escaped units. -/
theorem all_isPlain_unitEscape (unit : Nat) : (unitEscape unit).all isPlain = true := by
  have hdigits : (Text.hex 4 unit).all isPlain = true := List.all_eq_true.mpr fun c hc =>
    isPlain_of_isDigitIn (Text.isDigitIn_of_mem_hex hc)
  rw [unitEscape, List.all_cons, List.all_cons, hdigits]
  rfl

/-- So is every character once it is escaped. -/
theorem all_isPlain_escapeCode (code : Nat) : (escapeCode code).all isPlain = true := by
  obtain ⟨letter, hletter, -, htext⟩ | ⟨hlow, hhigh, -, -, htext⟩ | ⟨-, htext⟩ | ⟨-, htext⟩ :=
    escapeCode_cases code
  all_goals rw [htext]
  · have hplain : shortLetters.all isPlain = true := by decide
    rw [List.all_cons, List.all_cons, List.all_eq_true.mp hplain letter hletter]
    rfl
  · have hcode : (Char.ofNat code).toNat = code := by
      rw [Char.toNat_ofNat, if_pos (.inl (by omega))]
    rw [List.all_cons, isPlain_of_range (by omega) (by omega)]
    rfl
  · exact all_isPlain_unitEscape code
  · rw [List.all_append, all_isPlain_unitEscape, all_isPlain_unitEscape]
    rfl

/-- So is a text between quotes. -/
theorem all_isPlain_quote (text : Text.Codes) : (quote text).all isPlain = true := by
  have htext : (text.flatMap escapeCode).all isPlain = true := by
    rw [List.all_flatMap, List.all_eq_true]
    exact fun code _ => all_isPlain_escapeCode code
  rw [quote, List.all_cons, List.all_append, htext]
  rfl

/-- So is an integer. -/
theorem all_isPlain_toString (n : Int) : (toString n).toList.all isPlain = true := by
  have hdigits : (Nat.toDigits 10 n.natAbs).all isPlain = true := by
    rw [List.all_eq_true]
    intro c hc
    have hdigit := Char.isDigit_iff_toNat.mp
      (Nat.isDigit_of_mem_toDigits (by decide) (by decide) hc)
    exact isPlain_of_range (le_trans (by decide) hdigit.1) (le_trans hdigit.2 (by decide))
  rw [toList_toString, List.all_append, hdigits]
  split <;> rfl

/-- So are the items of an array, if each of them is. -/
theorem all_isPlain_prettyItems {items : List Json}
    (h : ∀ item ∈ items, (pretty level item).all isPlain = true) :
    (prettyItems level items).all isPlain = true := by
  induction items with
  | nil => rfl
  | cons item items ih =>
      rw [List.forall_mem_cons] at h
      simp only [prettyItems, List.all_cons, List.all_append, all_isPlain_newline, h.1, ih h.2]
      rfl

/-- So are the fields of an object. -/
theorem all_isPlain_prettyFields {fields : List (Text.Codes × Json)}
    (h : ∀ field ∈ fields, (pretty level field.2).all isPlain = true) :
    (prettyFields level fields).all isPlain = true := by
  induction fields with
  | nil => rfl
  | cons field fields ih =>
      rw [List.forall_mem_cons] at h
      simp only [prettyFields, List.all_cons, List.all_append, all_isPlain_newline,
        all_isPlain_quote, h.1, ih h.2]
      rfl

/-- All of what is written is plain. -/
theorem Writable.all_isPlain (h : Writable value) (level : Nat) :
    (pretty level value).all isPlain = true := by
  -- by induction on the value; the layout adds blanks, commas and brackets only
  induction h generalizing level with
  | null => rfl
  | bool b => cases b <;> rfl
  | int _ => exact all_isPlain_toString _
  | str => exact all_isPlain_quote _
  | @arr items _ ih =>
      cases items with
      | nil => rfl
      | cons item items =>
          rw [List.forall_mem_cons] at ih
          simp only [pretty, List.all_cons, List.all_append, all_isPlain_newline, ih.1,
            all_isPlain_prettyItems fun other hother => ih.2 other hother (level + 1)]
          rfl
  | @obj fields _ _ _ ih =>
      cases fields with
      | nil => rfl
      | cons field fields =>
          rw [List.forall_mem_cons] at ih
          simp only [pretty, List.all_cons, List.all_append, all_isPlain_newline, all_isPlain_quote,
            ih.1, all_isPlain_prettyFields fun other hother => ih.2 other hother (level + 1)]
          rfl

end Json

end Subleq
