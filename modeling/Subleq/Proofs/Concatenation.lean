import Mathlib
import Subleq.Proofs.LineGrammar
import Subleq.Proofs.Scanning

/-!
# Texts one below the other

A text that is put below another one says what it said before, further down.  Nothing that is read
goes over the end of a line, except for a literal with an escaped line feed in it, and no literal is
open at the end of a text that can be read.

`relocate` moves all places of a tree.  The grammars of expressions and lines speak of places only
to hand them on, so that what they derive can be moved anywhere (`Statement.Derives.relocate`).  The
cut of a text changes nothing but lines when another text comes before it (`Token.Cut.beneath`), and
is not changed by a text below it, except that its end becomes a line feed
(`Token.Cut.append_line`).
-/

namespace Subleq

/-! ## Moving the places of a tree -/

/-- The place so many lines further down, in the same column. -/
def Location.below (lines : Nat) (place : Location) : Location :=
  { place with line := place.line + lines }

section Relocation

variable (f : Location → Location)

/-- The token at another place. -/
def Token.relocate (token : Token) : Token := ⟨token.kind, f token.location⟩

/-- The expression with all places in it moved. -/
def Expr.relocate : Expr → Expr
  | num value location => num value (location.map f)
  | sym name location => sym name (location.map f)
  | here location => here (location.map f)
  | un op operand location => un op operand.relocate (location.map f)
  | bin op left right => bin op left.relocate right.relocate

/-- The access with all places in its expression moved. -/
def Access.relocate : Access → Access
  | immediate value => immediate (value.relocate f)
  | memory address => memory (address.relocate f)
  | temp field => temp field

/-- The operand with all places in it moved. -/
def Operand.relocate (operand : Operand) : Operand :=
  ⟨operand.access.relocate f, f operand.location⟩

/-- The operation with all places in its operands moved. -/
def Operation.relocate : Operation → Operation
  | subleq a b target => subleq (a.relocate f) (b.relocate f) (target.relocate f)
  | sub dst src => sub (dst.relocate f) (src.relocate f)
  | hlt => hlt
  | jmp target => jmp (target.relocate f)
  | mov dst src => mov (dst.relocate f) (src.relocate f)
  | addC dst addend => addC (dst.relocate f) (addend.relocate f)
  | addR dst src => addR (dst.relocate f) (src.relocate f)
  | add dst src => add (dst.relocate f) (src.relocate f)
  | je a b target => je (a.relocate f) (b.relocate f) (target.relocate f)

/-- The value of a data directive with all places in it moved. -/
def Datum.relocate : Datum → Datum
  | value e => value (e.relocate f)
  | text t => text t

/-- The body with all places in it moved. -/
def Body.relocate : Body → Body
  | operation op => operation (op.relocate f)
  | data size values => data size (values.map (Datum.relocate f))
  | reserve size count => reserve size (count.relocate f)

/-- The statement with all places in it moved. -/
def Statement.relocate : Statement → Statement
  | label name location => label name (f location)
  | constant keyword name value location => constant keyword name (value.relocate f) (f location)
  | item body location => item (body.relocate f) (f location)

end Relocation

variable {f : Location → Location}

/-- Moving an operation keeps its opcode. -/
theorem Operation.opcode_relocate (op : Operation) : (op.relocate f).opcode = op.opcode := by
  cases op <;> rfl

/-- Moving an operation moves its operands. -/
theorem Operation.operands_relocate (op : Operation) :
    (op.relocate f).operands = op.operands.map (Operand.relocate f) := by
  cases op <;> rfl

/-- Temp fields have no place to move. -/
theorem Access.relocate_eq_temp {access : Access} {field : Temp} :
    access.relocate f = .temp field ↔ access = .temp field := by
  cases access <;> simp [relocate]

/-! ## Moving derivations -/

/-- An expression can be read wherever its tokens are. -/
theorem Expr.Derives.relocate {level : Nat} {tokens : List Token} {e : Expr}
    (h : Derives level tokens e) :
    Derives level (tokens.map (Token.relocate f)) (e.relocate f) := by
  induction h with
  | number => exact .number
  | identifier => exact .identifier
  | here => exact .here
  | paren _ ih =>
      rw [List.map_append, List.map_cons]
      exact .paren ih
  | unary hop _ ih => exact .unary hop ih
  | binary hop _ _ ihleft ihright =>
      rw [List.map_append, List.map_cons]
      exact .binary hop ihleft ihright
  | tighter _ ih => exact .tighter ih

namespace Statement

/-- So can an operand. -/
theorem OperandForm.relocate {tokens : List Token} {operand : Operand}
    (h : OperandForm tokens operand) :
    OperandForm (tokens.map (Token.relocate f)) (operand.relocate f) := by
  cases h with
  | temp => exact .temp
  | tempCell => exact .tempCell
  | memory he =>
      rw [List.map_append, List.map_cons]
      exact .memory he.relocate
  | immediate he => exact .immediate he.relocate

/-- So can a datum. -/
theorem DatumForm.relocate {size : DataSize} {tokens : List Token} {datum : Datum}
    (h : DatumForm size tokens datum) :
    DatumForm size (tokens.map (Token.relocate f)) (datum.relocate f) := by
  cases h with
  | value he => exact .value he.relocate
  | text => exact .text

/-- So can a list with commas, if its parts can. -/
theorem Separated.relocate {α : Type} {form : List Token → α → Prop} {move : α → α}
    (hform : ∀ {tokens a}, form tokens a → form (tokens.map (Token.relocate f)) (move a))
    {tokens : List Token} {list : List α} (h : Separated form tokens list) :
    Separated form (tokens.map (Token.relocate f)) (list.map move) := by
  induction h with
  | one ha => exact .one (hform ha)
  | more ha _ ih =>
      rw [List.map_append, List.map_cons]
      exact .more (hform ha) ih

/-- So can the operands of an operation. -/
theorem OperandsForm.relocate {tokens : List Token} {operands : List Operand}
    (h : OperandsForm tokens operands) :
    OperandsForm (tokens.map (Token.relocate f)) (operands.map (Operand.relocate f)) := by
  cases h with
  | none => exact .none
  | some hoperands => exact .some (hoperands.relocate OperandForm.relocate)

/-- So can a label in front of a line. -/
theorem TagForm.relocate {tokens : List Token} {labels : List Statement}
    (h : TagForm tokens labels) :
    TagForm (tokens.map (Token.relocate f)) (labels.map (Statement.relocate f)) := by
  cases h with
  | none => exact .none
  | label => exact .label

/-- Which operands are targets does not depend on places. -/
theorem TargetsKnown.relocate {op : Operation} (h : TargetsKnown op) :
    TargetsKnown (op.relocate f) := by
  intro operand field hmem
  rw [Operation.operands_relocate, Operation.opcode_relocate, List.zip_map_left] at hmem
  obtain ⟨⟨original, role⟩, hpair, heq⟩ := List.mem_map.mp hmem
  obtain ⟨rfl, rfl⟩ := Prod.mk.inj heq
  rw [Operand.relocate, ne_eq, Access.relocate_eq_temp]
  exact h original field hpair

/-- So can a line of one of the forms. -/
theorem Form.relocate {line : List Token} {statements : List Statement}
    (h : Form line statements) :
    Form (line.map (Token.relocate f)) (statements.map (Statement.relocate f)) := by
  cases h with
  | empty => exact .empty
  | label => exact .label
  | operation htag hname hoperands harity htargets =>
      rw [List.map_append, List.map_append, List.map_cons]
      refine .operation htag.relocate ?_ ?_ ?_ htargets.relocate
      · rwa [Operation.opcode_relocate]
      · rw [Operation.operands_relocate]
        exact hoperands.relocate
      · rwa [Operation.operands_relocate, Operation.opcode_relocate, List.length_map]
  | data htag hname hvalues =>
      rw [List.map_append, List.map_append, List.map_cons]
      exact .data htag.relocate hname (hvalues.relocate DatumForm.relocate)
  | reserve htag hname hcount =>
      rw [List.map_append, List.map_append, List.map_cons]
      exact .reserve htag.relocate hname hcount.relocate
  | labelled hword hvalue => exact .labelled hword hvalue.relocate
  | listed hword hvalue => exact .listed hword hvalue.relocate

/-- Whether a line defines a constant does not depend on places. -/
theorem NamesConstant.of_relocate {line : List Token}
    (h : NamesConstant (line.map (Token.relocate f))) : NamesConstant line := by
  obtain ⟨name, place, word, location, rest, keyword, hline, hword⟩ := h
  obtain ⟨first, others, rfl, hfirst, hothers⟩ := List.map_eq_cons_iff.mp hline
  obtain ⟨second, more, rfl, hsecond, -⟩ := List.map_eq_cons_iff.mp hothers
  obtain ⟨kind, place⟩ := first
  obtain ⟨kind', place'⟩ := second
  obtain ⟨rfl, -⟩ := Token.mk.inj hfirst
  obtain ⟨rfl, -⟩ := Token.mk.inj hsecond
  exact ⟨name, place, word, place', more, keyword, rfl, hword⟩

/-- So can a line. -/
theorem Derives.relocate {line : List Token} {statements : List Statement}
    (h : Derives line statements) :
    Derives (line.map (Token.relocate f)) (statements.map (Statement.relocate f)) := by
  cases h with
  | named hword hvalue => exact .named hword hvalue.relocate
  | plain hnames hform => exact .plain (hnames ∘ NamesConstant.of_relocate) hform.relocate

/-! ## Lines of tokens -/

/-- Reading tokens of which the last one, and no other, ends the text. -/
theorem ofTokens_eq_ok {body : List Token} {eof : Token} (heof : eof.kind = .endOfInput)
    (hbody : ∀ token ∈ body, token.kind ≠ .endOfInput) {statements : List Statement} :
    ofTokens (body ++ [eof]) = .ok statements ↔
      LinesDerive (body.splitOnP isNewline) statements := by
  obtain ⟨htokens, hstops⟩ := map_tokens_split heof hbody
  rw [ofTokens, Folding.bind_eq_ok, LinesDerive, ← htokens]
  simp only [Folding.mapM_eq_ok, forall₂_readLine hstops, Except.ok.injEq]
  exact exists_congr fun groups => and_congr_right fun _ => eq_comm

/-- No token of two texts with a line feed between them ends the text, if none of theirs does. -/
theorem endless_append {body lower : List Token} {place : Location}
    (hbody : ∀ token ∈ body, token.kind ≠ .endOfInput)
    (hlower : ∀ token ∈ lower, token.kind ≠ .endOfInput) :
    ∀ token ∈ body ++ ⟨.newline, place⟩ :: lower.map (Token.relocate f),
      token.kind ≠ .endOfInput := by
  rw [List.forall_mem_append, List.forall_mem_cons, List.forall_mem_map]
  exact ⟨hbody, nofun, hlower⟩

/-- Lines that are put together say what each part says. -/
theorem LinesDerive.append {lines lines' : List (List Token)}
    {statements statements' : List Statement} (h : LinesDerive lines statements)
    (h' : LinesDerive lines' statements') :
    LinesDerive (lines ++ lines') (statements ++ statements') := by
  obtain ⟨groups, hgroups, rfl⟩ := h
  obtain ⟨groups', hgroups', rfl⟩ := h'
  exact ⟨groups ++ groups', List.rel_append hgroups hgroups', List.flatten_append.symm⟩

/-- So can all lines. -/
theorem LinesDerive.relocate {lines : List (List Token)} {statements : List Statement}
    (h : LinesDerive lines statements) :
    LinesDerive (lines.map (List.map (Token.relocate f)))
      (statements.map (Statement.relocate f)) := by
  obtain ⟨groups, hgroups, rfl⟩ := h
  refine ⟨groups.map (List.map (Statement.relocate f)), ?_, List.map_flatten⟩
  rw [List.forall₂_map_left_iff, List.forall₂_map_right_iff]
  exact hgroups.imp fun _ _ hline => hline.relocate

/-- Lines are split at the same tokens after a move. -/
theorem splitOnP_relocate (tokens : List Token) :
    (tokens.map (Token.relocate f)).splitOnP isNewline =
      (tokens.splitOnP isNewline).map (List.map (Token.relocate f)) := by
  induction tokens with
  | nil => rfl
  | cons token tokens ih =>
      rw [List.map_cons, List.splitOnP_cons_eq_if_modifyHead,
        List.splitOnP_cons_eq_if_modifyHead, ih]
      show (if isNewline token = true then _ else _) = _
      split_ifs
      · rfl
      · cases tokens.splitOnP isNewline <;> rfl

end Statement

/-! ## Cuts -/

/-- Below other lines a position is lower by their number, and in the same column. -/
theorem Location.after_below (file : String) (above text : List Char) :
    Location.after file (above ++ '\n' :: text) =
      (Location.after file text).below (above.count '\n' + 1) := by
  -- the column counts from the last line feed, which is not in what was put above
  have hcolumn : ((above ++ '\n' :: text).reverse.takeWhile (· != '\n')).length =
      (text.reverse.takeWhile (· != '\n')).length := by
    rw [List.reverse_append, List.reverse_cons, List.append_assoc, List.takeWhile_append]
    split_ifs with hall
    · simp [hall]
    · rfl
  have hline : (above ++ '\n' :: text).count '\n' =
      text.count '\n' + (above.count '\n' + 1) := by
    rw [List.count_append, List.count_cons_self]
    omega
  rw [Location.after, hcolumn, hline, Location.after, Location.below]
  push_cast
  congr 1
  ring

open Text (Stops)

/-- Nothing goes on over the end of a line. -/
theorem stops_above {inClass : Char → Bool} (hline : inClass '\n' = false) {rest : List Char}
    (below : List Char) : Stops inClass (rest ++ '\n' :: below) ↔ Stops inClass rest := by
  cases rest <;> simp [hline]

/-- A gap stays one if more lines come after it. -/
theorem Lexeme.Gap.above {gap rest : List Char} (h : Gap gap rest) (below : List Char) :
    Gap gap (rest ++ '\n' :: below) := by
  induction h with
  | nil => exact .nil
  | blank hc _ ih => exact .blank hc ih
  | comment hbody hrest _ ih =>
      refine .comment hbody ?_ ih
      rwa [← List.append_assoc, stops_above rfl]

/-- A word stays one if more lines come after it. -/
theorem Lexeme.Spells.above {lexeme rest : List Char} {kind : Token.Kind}
    (h : Spells lexeme kind rest) (below : List Char) :
    Spells lexeme kind (rest ++ '\n' :: below) := by
  have hstops : Stops Char.continuesName rest →
      Stops Char.continuesName (rest ++ '\n' :: below) := (stops_above rfl below).mpr
  cases h with
  | newline => exact .newline
  | identifier hfirst hmore hrest => exact .identifier hfirst hmore (hstops hrest)
  | decimal hdigits hshort hrest => exact .decimal hdigits hshort (hstops hrest)
  | based hbase hdigits hrest => exact .based hbase hdigits (hstops hrest)
  | character hline hslash => exact .character hline hslash
  | escaped hescape => exact .escaped hescape
  | string hbody => exact .string hbody
  | temp hrest => exact .temp (hstops hrest)
  | dollar halone =>
      refine .dollar ?_
      intro field after htext hafter
      obtain ⟨letter, hname⟩ := exists_letter field
      rw [hname] at htext
      cases rest with
      | nil =>
          -- A line feed is not the letter of a temp field.
          obtain ⟨rfl, -⟩ := List.cons.inj (List.cons.inj htext).2
          cases field <;> cases hname
      | cons c rest =>
          obtain ⟨rfl, rfl⟩ := List.cons.inj (List.cons.inj htext).2
          exact halone field rest (by rw [hname]; rfl) ((stops_above rfl below).mp hafter)
  | mark hdollar => exact .mark hdollar

namespace Token.Cut

variable {file : String} {before text : List Char} {tokens : List Token}

theorem append_cons_append (above before gap : List Char) :
    above ++ '\n' :: (before ++ gap) = above ++ '\n' :: before ++ gap := by
  simp

/-- A text with another one above it has the same tokens, further down. -/
theorem beneath (h : Cut file before text tokens) (above : List Char) :
    Cut file (above ++ '\n' :: before) text
      (tokens.map (Token.relocate (Location.below (above.count '\n' + 1)))) := by
  induction h with
  | @done before gap hgap =>
      rw [List.map_singleton, Token.relocate, ← Location.after_below, append_cons_append]
      exact .done hgap
  | @token before gap lexeme rest kind tokens hgap hspells _ ih =>
      rw [List.map_cons, Token.relocate, ← Location.after_below, append_cons_append]
      refine .token hgap hspells ?_
      rwa [append_cons_append, append_cons_append] at ih

/-- The last token of a text ends it, and no other one does. -/
theorem exists_body (h : Cut file before text tokens) :
    ∃ body eof, tokens = body ++ [eof] ∧ eof.kind = .endOfInput ∧
      ∀ token ∈ body, token.kind ≠ .endOfInput := by
  induction h with
  | done => exact ⟨[], _, rfl, rfl, nofun⟩
  | @token before gap lexeme rest kind tokens _ hspells _ ih =>
      obtain ⟨body, eof, rfl, heof, hbody⟩ := ih
      refine ⟨⟨kind, .after file (before ++ gap)⟩ :: body, eof, rfl, heof, ?_⟩
      refine List.forall_mem_cons.mpr ⟨?_, hbody⟩
      cases hspells <;> nofun

/-- The tokens of two texts, one below the other.  In place of the end of the first there is the
line feed between them. -/
theorem append_line {below : List Char} {body lower : List Token} {eof : Token}
    (h : Cut file before text (body ++ [eof]))
    (hlower : Cut file (before ++ text ++ ['\n']) below lower) :
    Cut file before (text ++ '\n' :: below) (body ++ ⟨.newline, eof.location⟩ :: lower) := by
  -- the induction is on the cut, whose tokens end in the end of input
  generalize htokens : body ++ [eof] = tokens at h
  induction h generalizing body with
  | @done before gap hgap =>
      cases body with
      | nil =>
          obtain ⟨rfl, -⟩ := List.cons.inj htokens
          -- the end of the upper text becomes a line feed
          have hline : Lexeme.Gap gap (['\n'] ++ below) := hgap.above below
          exact .token hline .newline hlower
      | cons token body => cases body <;> cases htokens
  | @token before gap lexeme rest kind tokens hgap hspells hrest ih =>
      cases body with
      | nil =>
          obtain ⟨-, rfl⟩ := List.cons.inj htokens
          cases hrest
      -- gaps and words are not changed by what comes below the line
      | cons token body =>
          obtain ⟨rfl, hbody⟩ := List.cons.inj htokens
          rw [List.append_assoc, List.append_assoc]
          refine .token ?_ (hspells.above below) (ih ?_ hbody)
          · rw [← List.append_assoc]
            exact hgap.above below
          · simpa only [List.append_assoc] using hlower

end Token.Cut

namespace Statement

/-- Reading goes line by line: if two texts can be read, then so can the second below the first.
The statements are those of the first and, after them, those of the second, with every place in
these as many lines further down as the first text has, in the same column. -/
theorem parse_append_line {first second file : String} {upper lower : List Statement}
    (hupper : parse first file = .ok upper) (hlower : parse second file = .ok lower) :
    parse (first ++ "\n" ++ second) file =
      .ok (upper ++
        lower.map (Statement.relocate (Location.below (first.toList.count '\n' + 1)))) := by
  obtain ⟨tokens, hscan, hread⟩ := Folding.bind_eq_ok.mp hupper
  obtain ⟨tokens', hscan', hread'⟩ := Folding.bind_eq_ok.mp hlower
  have hcut := Token.scan_eq_ok.mp hscan
  have hcut' := Token.scan_eq_ok.mp hscan'
  obtain ⟨body, eof, rfl, heof, hbody⟩ := hcut.exists_body
  obtain ⟨body', eof', rfl, heof', hbody'⟩ := hcut'.exists_body
  rw [Folding.ofReading_eq_ok, ofTokens_eq_ok heof hbody] at hread
  rw [Folding.ofReading_eq_ok, ofTokens_eq_ok heof' hbody'] at hread'
  -- The tokens of the two texts together.
  have hjoined := hcut.append_line (hcut'.beneath first.toList)
  have htext : (first ++ "\n" ++ second).toList = first.toList ++ '\n' :: second.toList := by simp
  refine Folding.bind_eq_ok.mpr ⟨_, Token.scan_eq_ok.mpr (htext ▸ hjoined), ?_⟩
  rw [List.map_append, List.map_singleton, ← List.cons_append, ← List.append_assoc]
  refine Folding.ofReading_eq_ok.mpr
    ((ofTokens_eq_ok (by exact heof') (endless_append hbody hbody')).mpr ?_)
  rw [List.splitOnP_append_cons _ _ rfl, splitOnP_relocate]
  exact hread.append hread'.relocate

/-- The first text has a string over two lines, and ends in a comment. -/
theorem parse_append_line_comment :
    parse "s: db \"\\\n\" ; end" "f" = .ok
        [.label "s" ⟨"f", 1, 1⟩, .item (.data .byte [.text "\n"]) ⟨"f", 1, 4⟩] ∧
      parse "k equ $ + 1\n  jmp [k]" "f" = .ok
        [.constant .equ "k"
            (.bin .add (.here (some ⟨"f", 1, 7⟩)) (.num 1 (some ⟨"f", 1, 11⟩))) ⟨"f", 1, 1⟩,
          .item (.operation (.jmp ⟨.memory (.sym "k" (some ⟨"f", 2, 8⟩)), ⟨"f", 2, 7⟩⟩))
            ⟨"f", 2, 3⟩] ∧
      parse ("s: db \"\\\n\" ; end" ++ "\n" ++ "k equ $ + 1\n  jmp [k]") "f" = .ok
        [.label "s" ⟨"f", 1, 1⟩, .item (.data .byte [.text "\n"]) ⟨"f", 1, 4⟩,
          .constant .equ "k"
            (.bin .add (.here (some ⟨"f", 3, 7⟩)) (.num 1 (some ⟨"f", 3, 11⟩))) ⟨"f", 3, 1⟩,
          .item (.operation (.jmp ⟨.memory (.sym "k" (some ⟨"f", 4, 8⟩)), ⟨"f", 4, 7⟩⟩))
            ⟨"f", 4, 3⟩] := by
  have hfirst : parse "s: db \"\\\n\" ; end" "f" = .ok
      [.label "s" ⟨"f", 1, 1⟩, .item (.data .byte [.text "\n"]) ⟨"f", 1, 4⟩] := by rfl
  have hsecond : parse "k equ $ + 1\n  jmp [k]" "f" = .ok
      [.constant .equ "k"
          (.bin .add (.here (some ⟨"f", 1, 7⟩)) (.num 1 (some ⟨"f", 1, 11⟩))) ⟨"f", 1, 1⟩,
        .item (.operation (.jmp ⟨.memory (.sym "k" (some ⟨"f", 2, 8⟩)), ⟨"f", 2, 7⟩⟩))
          ⟨"f", 2, 3⟩] := by rfl
  exact ⟨hfirst, hsecond, parse_append_line hfirst hsecond⟩

end Statement

end Subleq
