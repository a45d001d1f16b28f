import Mathlib
import Subleq.Proofs.Concatenation

/-!
# The end of a text

The tokens of a text end in one that stands for its end.  The reader does not ask for it: a line may
break off with the last token, and what is missing from it is then missed there.  So the reader has
the end as a place only, which it hands on to the diagnostics of what is missing, and no result
depends on it (`agrees_readOperand` to `agrees_readBody`).

One line is different.  A name before a constant keyword is a label, and a keyword that nothing
follows, not even the end, is taken for such a name.  So a text whose last line is a keyword alone
is refused with its end, and without it the keyword becomes a label (`ofTokens_dropLast`).
-/

namespace Subleq

/-! ## The last line -/

/-- Lines end at line ends and at the end of the text only. -/
theorem Token.Kind.endsLine_eq_false {kind : Token.Kind} :
    kind.endsLine = false ↔ kind ≠ .newline ∧ kind ≠ .endOfInput := by
  cases kind <;> simp [endsLine]

namespace Line

/-- A line starts after the tokens: there are none, or the last of them is a line feed. -/
def StartsAfter (above : List Token) : Prop := ∀ token ∈ above.getLast?, token.kind = .newline

/-- Tokens make at least one line. -/
theorem split_ne_nil (token : Token) (rest : List Token) : split (token :: rest) ≠ [] := by
  rw [split]
  split
  · exact List.cons_ne_nil _ _
  · exact List.cons_ne_nil _ _
  · split <;> exact List.cons_ne_nil _ _

/-- A line end closes a line, which is empty if nothing is before it. -/
theorem split_newline {token : Token} (h : token.kind = .newline) (rest : List Token) :
    split (token :: rest) = ⟨[], some token⟩ :: split rest := by
  simp only [split, h]

/-- A token that ends no line goes to the front of the next line. -/
theorem split_cons {token : Token} (h : token.kind.endsLine = false) {rest : List Token}
    {line : Line} {lines : List Line} (hrest : split rest = line :: lines) :
    split (token :: rest) = ⟨token :: line.tokens, line.stop⟩ :: lines := by
  obtain ⟨hnewline, hend⟩ := Token.Kind.endsLine_eq_false.mp h
  rw [split, hrest]
  split
  case h_1 hkind => exact absurd hkind hend
  case h_2 hkind => exact absurd hkind hnewline
  case h_3 => rfl

/-- A token by itself is a line that is not closed. -/
theorem split_singleton {token : Token} (h : token.kind.endsLine = false) :
    split [token] = [⟨[token], none⟩] := by
  obtain ⟨hnewline, hend⟩ := Token.Kind.endsLine_eq_false.mp h
  rw [split]
  split
  case h_1 hkind => exact absurd hkind hend
  case h_2 hkind => exact absurd hkind hnewline
  case h_3 => rfl

/-- Tokens after which a line starts are cut into lines by themselves. -/
theorem split_append {above : List Token} (h : StartsAfter above)
    (hends : ∀ token ∈ above, token.kind ≠ .endOfInput) (rest : List Token) :
    split (above ++ rest) = split above ++ split rest := by
  induction above with
  | nil => rfl
  | cons token above ih =>
      obtain ⟨htoken, hends⟩ := List.forall_mem_cons.mp hends
      by_cases hkind : token.kind = .newline
      · have habove : StartsAfter above := by
          cases above with
          | nil => exact nofun
          | cons next above => exact h
        rw [List.cons_append, split_newline hkind, split_newline hkind, ih habove hends,
          List.cons_append]
      · have hline : token.kind.endsLine = false := Token.Kind.endsLine_eq_false.mpr ⟨hkind, htoken⟩
        cases above with
        | nil => exact absurd (h token rfl) hkind
        | cons next above =>
            -- The token goes to a line of `above`, which has one since it has a token.
            obtain ⟨line, lines, hlines⟩ := List.exists_cons_of_ne_nil (split_ne_nil next above)
            have hrest : split (next :: above ++ rest) = line :: (lines ++ split rest) := by
              rw [ih h hends, hlines, List.cons_append]
            rw [List.cons_append, split_cons hline hrest, split_cons hline hlines, List.cons_append]

/-- Tokens without a line end are one open line. -/
theorem split_open {last : List Token} (h : last ≠ [])
    (hends : ∀ token ∈ last, token.kind.endsLine = false) :
    split last = [⟨last, none⟩] := by
  induction last with
  | nil => exact absurd rfl h
  | cons token last ih =>
      obtain ⟨htoken, hends⟩ := List.forall_mem_cons.mp hends
      cases last with
      | nil => exact split_singleton htoken
      | cons next last => exact split_cons htoken (ih (List.cons_ne_nil next last) hends)

/-- With the end of the text behind them they are one closed line. -/
theorem split_closed {last : List Token} (hends : ∀ token ∈ last, token.kind.endsLine = false)
    {eof : Token} (heof : eof.kind = .endOfInput) :
    split (last ++ [eof]) = [⟨last, some eof⟩] := by
  induction last with
  | nil => simp only [List.nil_append, split, heof]
  | cons token last ih =>
      obtain ⟨htoken, hends⟩ := List.forall_mem_cons.mp hends
      exact split_cons htoken (ih hends)

/-- The last line of tokens, which may be empty, and the lines above it. -/
theorem exists_last_line (body : List Token) :
    ∃ above last, body = above ++ last ∧ StartsAfter above ∧
      ∀ token ∈ last, token.kind ≠ .newline := by
  induction body using List.reverseRecOn with
  | nil => exact ⟨[], [], rfl, nofun, nofun⟩
  | append_singleton body token ih =>
      by_cases hkind : token.kind = .newline
      · refine ⟨body ++ [token], [], (List.append_nil _).symm, ?_, nofun⟩
        rw [StartsAfter, List.getLast?_concat]
        rintro _ ⟨⟩
        exact hkind
      · obtain ⟨above, last, rfl, habove, hlast⟩ := ih
        refine ⟨above, last ++ [token], List.append_assoc above last [token], habove, ?_⟩
        rw [List.forall_mem_append, List.forall_mem_singleton]
        exact ⟨hlast, hkind⟩

end Line

namespace Statement

/-! ## Readings that agree -/

/-- Two readings have the same result, or are refused for the same reason, wherever that was
found. -/
def Agrees {α : Type} (x y : Except Diagnostic α) : Prop :=
  x.mapError Diagnostic.cause = y.mapError Diagnostic.cause

namespace Agrees

variable {α β : Type} {x y : Except Diagnostic α}

theorem refl (x : Except Diagnostic α) : Agrees x x := rfl

/-- Refusals for the same cause agree wherever they are placed. -/
theorem refuse (cause : Cause) (place place' : Location) :
    Agrees (Statement.refuse cause place : Except Diagnostic α)
      (Statement.refuse cause place') := rfl

/-- Readings that agree step by step agree. -/
theorem bind {f g : α → Except Diagnostic β} (h : Agrees x y) (hrest : ∀ a, Agrees (f a) (g a)) :
    Agrees (x >>= f) (y >>= g) := by
  cases x with
  | error d =>
      cases y with
      | error d' => exact congrArg Except.error (Except.error.inj h)
      | ok b => cases h
  | ok a =>
      cases y with
      | error d' => cases h
      | ok b =>
          obtain rfl := Except.ok.inj h
          exact hrest a

/-- What is read does not depend on where a refusal would be placed. -/
theorem mapError_eq_ok {a : α} : x.mapError Diagnostic.cause = .ok a ↔ x = .ok a := by
  cases x <;> simp [Except.mapError]

/-- Readings that agree succeed together, with the same result. -/
theorem eq_ok_iff (h : Agrees x y) {a : α} : x = .ok a ↔ y = .ok a := by
  rw [← mapError_eq_ok, h, mapError_eq_ok]

end Agrees

/-! ## What is read up to a place -/

section Stops

variable (stop stop' : Location)

/-- An operand is read alike whatever ends its line. -/
theorem agrees_readOperand (tokens : List Token) :
    Agrees (readOperand stop tokens) (readOperand stop' tokens) := by
  cases tokens with
  | nil => exact .refuse _ _ _
  | cons token rest =>
      simp only [readOperand]
      split
      · exact .refl _
      · -- A memory reference that is not closed is the only operand that the end cuts off.
        split
        · exact .refuse _ _ _
        · exact .refl _
      · exact .refl _

/-- So are all operands of a line. -/
theorem agrees_readOperandsWithin (rounds : Nat) (tokens : List Token) :
    Agrees (readOperandsWithin stop rounds tokens) (readOperandsWithin stop' rounds tokens) := by
  induction rounds generalizing tokens with
  | zero => exact .refl _
  | succ rounds ih =>
      refine (agrees_readOperand stop stop' tokens).bind fun found => ?_
      simp only
      split
      · exact (ih _).bind fun _ => .refl _
      · exact .refl _

/-- So is an operation. -/
theorem agrees_readOperation (opcode : Opcode) (location : Location) (tokens : List Token) :
    Agrees (readOperation opcode location stop tokens)
      (readOperation opcode location stop' tokens) := by
  have hoperands : Agrees (readOperands stop tokens) (readOperands stop' tokens) := by
    rw [readOperands, readOperands]
    split_ifs
    · exact .refl _
    · exact agrees_readOperandsWithin stop stop' _ tokens
  exact hoperands.bind fun _ => .refl _

/-- So is a constant. -/
theorem agrees_readConstant (keyword : ConstantKeyword) (label : Option (String × Location))
    (location : Location) (tokens : List Token) :
    Agrees (readConstant keyword label location stop tokens)
      (readConstant keyword label location stop' tokens) := by
  cases label with
  | some label => exact .refl _
  | none =>
      simp only [readConstant]
      split
      · split
        · exact .refl _
        · exact .refl _
        · exact .refuse _ _ _
      · exact .refl _

/-- So is what stands behind a label. -/
theorem agrees_readBody (label : Option (String × Location)) (name : String) (location : Location)
    (tokens : List Token) :
    Agrees (readBody label name location stop tokens)
      (readBody label name location stop' tokens) := by
  simp only [readBody]
  split
  · exact (agrees_readConstant stop stop' _ _ _ _).bind fun _ => .refl _
  · exact (agrees_readOperation stop stop' _ _ _).bind fun _ => .refl _
  · exact .refl _
  · exact .refl _
  · exact .refl _

end Stops

/-! ## Lines without an end -/

/-- The line is a constant keyword and nothing else. -/
def IsKeyword (tokens : List Token) : Prop :=
  ∃ name place keyword, tokens = [⟨.identifier name, place⟩] ∧
    ConstantKeyword.ofName? name = some keyword

/-- What ends a line matters for its label only if the line is a keyword by itself. -/
theorem splitLabel_stop {tokens : List Token} (h : ¬ IsKeyword tokens) (stop : Option Token) :
    splitLabel ⟨tokens, stop⟩ = splitLabel ⟨tokens, none⟩ := by
  simp only [splitLabel]
  split
  · rfl
  · rfl
  · next name place =>
      have hname : ConstantKeyword.ofName? name = none := by
        rw [Option.eq_none_iff_forall_ne_some]
        exact fun keyword hkeyword => h ⟨name, place, keyword, rfl, hkeyword⟩
      simp [hname]
  · rfl

/-- A line is read alike whether its end is known or not, unless it is a keyword alone. -/
theorem agrees_readLine {tokens : List Token} (h : ¬ IsKeyword tokens) (stop : Option Token) :
    Agrees (readLine ⟨tokens, none⟩) (readLine ⟨tokens, stop⟩) := by
  simp only [readLine, splitLabel_stop h stop]
  split
  · exact .refl _
  · split
    · exact agrees_readBody _ _ _ _ _ _
    · exact .refl _

/-- A keyword by itself on an open line is a label. -/
theorem readLine_keyword {name : String} {place : Location} {keyword : ConstantKeyword}
    (h : ConstantKeyword.ofName? name = some keyword) :
    readLine ⟨[⟨.identifier name, place⟩], none⟩ = .ok [.label name place] := by
  simp [readLine, splitLabel, h, labels]

/-- On a closed line it is refused. -/
theorem readLine_keyword_stop {name : String} {place : Location} {keyword : ConstantKeyword}
    (h : ConstantKeyword.ofName? name = some keyword) (stop : Token) :
    readLine ⟨[⟨.identifier name, place⟩], some stop⟩ =
      refuse (.noSymbolName keyword.name) place := by
  have hname : Keyword.ofName? name = some (.constant keyword) :=
    Keyword.ofName?_eq_some.mpr (ConstantKeyword.ofName?_eq_some.mp h)
  have hlabel : splitLabel ⟨[⟨.identifier name, place⟩], some stop⟩ =
      (none, [⟨.identifier name, place⟩]) := by simp [splitLabel]
  rw [readLine, hlabel]
  simp only [readBody, hname]
  rfl

/-- Tokens are read line by line. -/
theorem ofTokens_of_split {tokens above : List Token} {line : Line}
    (h : Line.split tokens = Line.split above ++ [line]) :
    ofTokens tokens =
      ofTokens above >>= fun upper => readLine line >>= fun group => .ok (upper ++ group) := by
  rw [ofTokens, ofTokens, h, List.mapM_append, List.mapM_cons]
  cases (Line.split above).mapM readLine with
  | error d => rfl
  | ok groups =>
      cases readLine line with
      | error d => rfl
      | ok group => simp [bind, Except.bind, pure, Except.pure]

/-! ## Texts with and without their end -/

section Ends

variable {above last : List Token} {eof : Token}

/-- An open line at the end is read after all others. -/
theorem ofTokens_open (habove : Line.StartsAfter above)
    (hends : ∀ token ∈ above, token.kind ≠ .endOfInput) (hlast : last ≠ [])
    (hline : ∀ token ∈ last, token.kind.endsLine = false) :
    ofTokens (above ++ last) =
      ofTokens above >>= fun upper =>
        readLine ⟨last, none⟩ >>= fun group => .ok (upper ++ group) := by
  apply ofTokens_of_split
  rw [Line.split_append habove hends, Line.split_open hlast hline]

/-- So is a line that the end of the text closes. -/
theorem ofTokens_closed (habove : Line.StartsAfter above)
    (hends : ∀ token ∈ above, token.kind ≠ .endOfInput)
    (hline : ∀ token ∈ last, token.kind.endsLine = false) (heof : eof.kind = .endOfInput) :
    ofTokens (above ++ last ++ [eof]) =
      ofTokens above >>= fun upper =>
        readLine ⟨last, some eof⟩ >>= fun group => .ok (upper ++ group) := by
  apply ofTokens_of_split
  rw [List.append_assoc, Line.split_append habove hends, Line.split_closed hline heof]

/-- Tokens are read alike with their end and without it, unless the last line is a keyword alone. -/
theorem agrees_ofTokens (habove : Line.StartsAfter above)
    (hends : ∀ token ∈ above, token.kind ≠ .endOfInput)
    (hline : ∀ token ∈ last, token.kind.endsLine = false) (heof : eof.kind = .endOfInput)
    (hlast : ¬ IsKeyword last) :
    Agrees (ofTokens (above ++ last)) (ofTokens (above ++ last ++ [eof])) := by
  rw [ofTokens_closed habove hends hline heof]
  by_cases hempty : last = []
  · subst hempty
    have hnone : readLine ⟨[], some eof⟩ = .ok [] := rfl
    rw [hnone, List.append_nil]
    cases ofTokens above with
    | error d => exact .refl _
    | ok upper => exact congrArg Except.ok (List.append_nil upper).symm
  · rw [ofTokens_open habove hends hempty hline]
    refine (Agrees.refl (ofTokens above)).bind fun upper => ?_
    exact (agrees_readLine hlast (some eof)).bind fun _ => .refl _

end Ends

/-- The last line of the tokens has no line feed behind it, and is a constant keyword alone. -/
def EndsInKeyword (tokens : List Token) : Prop :=
  ∃ above last, tokens = above ++ last ∧ Line.StartsAfter above ∧ IsKeyword last

/-- The end of a text is optional, unless the last line is a constant keyword alone.  The tokens of
a text without the one for its end are read as those with it: the statements are the same, and so is
the reason for a refusal.  But if the last line is a keyword alone and all above it can be read, the
text with its end is refused for want of a name, and without it the keyword is read as a label. -/
theorem ofTokens_dropLast {source file : String} {tokens : List Token}
    (hscan : Token.scan source file = .ok tokens) :
    (¬ EndsInKeyword tokens.dropLast →
      (∀ statements, ofTokens tokens.dropLast = .ok statements ↔ ofTokens tokens = .ok statements) ∧
        Agrees (ofTokens tokens.dropLast) (ofTokens tokens)) ∧
    ∀ above name place keyword, Line.StartsAfter above →
      tokens.dropLast = above ++ [⟨.identifier name, place⟩] →
      ConstantKeyword.ofName? name = some keyword →
        ofTokens tokens.dropLast =
            (ofTokens above >>= fun upper => .ok (upper ++ [.label name place])) ∧
          ofTokens tokens =
            (ofTokens above >>= fun _ => refuse (.noSymbolName keyword.name) place) := by
  obtain ⟨body, eof, rfl, heof, hbody⟩ := (Token.scan_eq_ok.mp hscan).exists_body
  rw [List.dropLast_concat]
  constructor
  · intro hkeyword
    -- only the last line is cut short; the lines above it are read alike
    obtain ⟨above, last, rfl, habove, hlast⟩ := Line.exists_last_line body
    obtain ⟨hends, hlastEnds⟩ := List.forall_mem_append.mp hbody
    have hline : ∀ token ∈ last, token.kind.endsLine = false := fun token hmem =>
      Token.Kind.endsLine_eq_false.mpr ⟨hlast token hmem, hlastEnds token hmem⟩
    have hagrees := agrees_ofTokens habove hends hline heof
      fun hlast => hkeyword ⟨above, last, rfl, habove, hlast⟩
    exact ⟨fun _ => hagrees.eq_ok_iff, hagrees⟩
  · rintro above name place keyword habove rfl hname
    have hends := (List.forall_mem_append.mp hbody).1
    have hline : ∀ token ∈ [(⟨.identifier name, place⟩ : Token)], token.kind.endsLine = false :=
      List.forall_mem_singleton.mpr rfl
    -- the keyword by itself is a label where the tokens end, and an unnamed constant at the end of
    -- input
    rw [ofTokens_open habove hends (List.cons_ne_nil _ _) hline,
      ofTokens_closed habove hends hline heof, readLine_keyword hname,
      readLine_keyword_stop hname]
    exact ⟨rfl, rfl⟩

/-- A memory reference that the end of the text leaves open, which is missed at different places,
and a keyword below another line. -/
theorem ofTokens_dropLast_open_and_keyword :
    (∃ tokens, Token.scan "jmp [x" "f" = .ok tokens ∧ ¬ EndsInKeyword tokens.dropLast ∧
      Agrees (ofTokens tokens.dropLast) (ofTokens tokens) ∧
      ofTokens tokens.dropLast = .error (.found .unclosedMemory (some ⟨"f", 1, 6⟩)) ∧
      ofTokens tokens = .error (.found .unclosedMemory (some ⟨"f", 1, 7⟩))) ∧
    ∃ tokens, Token.scan "x: hlt\n\tDef" "f" = .ok tokens ∧
      ofTokens tokens.dropLast = .ok
        [.label "x" ⟨"f", 1, 1⟩, .item (.operation .hlt) ⟨"f", 1, 4⟩, .label "Def" ⟨"f", 2, 2⟩] ∧
      ofTokens tokens = .error (.found (.noSymbolName "def") (some ⟨"f", 2, 2⟩)) := by
  constructor
  · have hscan : Token.scan "jmp [x" "f" = .ok
        [⟨.identifier "jmp", ⟨"f", 1, 1⟩⟩, ⟨.mark .leftBracket, ⟨"f", 1, 5⟩⟩,
          ⟨.identifier "x", ⟨"f", 1, 6⟩⟩, ⟨.endOfInput, ⟨"f", 1, 7⟩⟩] := rfl
    have hkeyword : ¬ EndsInKeyword [⟨.identifier "jmp", ⟨"f", 1, 1⟩⟩,
        ⟨.mark .leftBracket, ⟨"f", 1, 5⟩⟩, ⟨.identifier "x", ⟨"f", 1, 6⟩⟩] := by
      -- the last token would have to be the name of a constant directive
      rintro ⟨above, _, htokens, -, name, place, keyword, rfl, hname⟩
      have hlast := congrArg List.getLast? htokens
      rw [List.getLast?_concat] at hlast
      obtain rfl : "x" = name := Token.Kind.identifier.inj (Token.mk.inj (Option.some.inj hlast)).1
      cases keyword <;> exact absurd hname (by decide)
    exact ⟨_, hscan, hkeyword, ((ofTokens_dropLast hscan).1 hkeyword).2, rfl, rfl⟩
  · have hscan : Token.scan "x: hlt\n\tDef" "f" = .ok
        [⟨.identifier "x", ⟨"f", 1, 1⟩⟩, ⟨.mark .colon, ⟨"f", 1, 2⟩⟩,
          ⟨.identifier "hlt", ⟨"f", 1, 4⟩⟩, ⟨.newline, ⟨"f", 1, 7⟩⟩,
          ⟨.identifier "Def", ⟨"f", 2, 2⟩⟩, ⟨.endOfInput, ⟨"f", 2, 5⟩⟩] := rfl
    obtain ⟨hopen, hclosed⟩ := (ofTokens_dropLast hscan).2
      [⟨.identifier "x", ⟨"f", 1, 1⟩⟩, ⟨.mark .colon, ⟨"f", 1, 2⟩⟩,
        ⟨.identifier "hlt", ⟨"f", 1, 4⟩⟩, ⟨.newline, ⟨"f", 1, 7⟩⟩]
      "Def" ⟨"f", 2, 2⟩ .define (by rintro _ ⟨⟩; rfl) rfl rfl
    exact ⟨_, hscan, hopen, hclosed⟩

/-- A keyword that is the whole text: it is refused with its end, and a label without it. -/
theorem keyword_read_without_end :
    ∃ tokens, Token.scan "equ" "f" = .ok tokens ∧
      ofTokens tokens.dropLast = .ok [.label "equ" ⟨"f", 1, 1⟩] ∧
      ofTokens tokens = .error (.found (.noSymbolName "equ") (some ⟨"f", 1, 1⟩)) :=
  ⟨_, rfl, rfl, rfl⟩

end Statement

end Subleq
