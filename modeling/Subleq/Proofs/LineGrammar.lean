import Mathlib
import Subleq.Proofs.ExprGrammar
import Subleq.Proofs.Folding
import Subleq.Statement.Reader

/-!
# The grammar of lines

`Statement.Form tokens statements` lists the forms of a line, each with the statements that it
stands for; the expressions in it are those of the precedence grammar.  A line whose second token is
a constant keyword after a name has only one form open to it (`Statement.Derives`).

The reader does not follow the grammar.  It cuts operands and arguments out of a line by counting
brackets, of both kinds and without telling them apart, and hands what it has cut out to the reader
of expressions.  `collect_append` and `splitArguments_append` say that no cut goes through an
expression, since its parentheses are balanced and it has neither commas nor brackets.  In the other
direction nothing has to be known about a cut but that it loses no tokens: what was cut in a wrong
place is refused by the reader of expressions.
-/

namespace Subleq

/-! ## Mnemonics -/

/-- A text in small letters stays as it is. -/
theorem Text.lower_lower (text : String) : lower (lower text) = lower text := by
  simp [lower, Function.comp_def]

/-- The words for constants are known in any case. -/
theorem ConstantKeyword.ofName?_eq_some {text : String} {keyword : ConstantKeyword} :
    ofName? text = some keyword ↔ Text.lower text = keyword.name := by
  rw [ofName?]
  constructor
  · intro h
    split_ifs at h with hequ hdefine
    · rw [← Option.some.inj h, hequ]
    · rw [← Option.some.inj h, hdefine]
  · intro h
    rw [h]
    cases keyword <;> decide

namespace Keyword

def name : Keyword → String
  | constant keyword => keyword.name
  | operation opcode => opcode.name
  | data size => size.dataName
  | reserve size => size.reserveName

/-- The case of a keyword does not matter. -/
theorem ofName?_lower (text : String) : ofName? (Text.lower text) = ofName? text := by
  simp only [ofName?, Text.lower_lower]

/-- No two mnemonics are written alike. -/
theorem ofName?_name (keyword : Keyword) : ofName? keyword.name = some keyword := by
  cases keyword with
  | constant keyword => cases keyword <;> decide
  | operation opcode => cases opcode <;> decide
  | data size => cases size <;> decide
  | reserve size => cases size <;> decide

/-- Keywords are known in any case. -/
theorem ofName?_eq_some {text : String} {keyword : Keyword} :
    ofName? text = some keyword ↔ Text.lower text = keyword.name := by
  constructor
  · intro h
    -- The four kinds of mnemonics are looked up one after the other.
    simp only [ofName?, Option.orElse_eq_orElse, Option.orElse_eq_or, Option.or_eq_some_iff,
      Option.map_eq_some_iff] at h
    rcases h with ⟨k, hk, rfl⟩ | ⟨-, ⟨opcode, ho, rfl⟩ | ⟨-, ⟨size, hs, rfl⟩ | ⟨-, size, hs, rfl⟩⟩⟩
    · rw [← Text.lower_lower]
      exact ConstantKeyword.ofName?_eq_some.mp hk
    · have hname := List.find?_some ho
      rw [Text.lower_lower] at hname
      exact (beq_iff_eq.mp hname).symm
    · have hname := List.find?_some hs
      exact (beq_iff_eq.mp hname).symm
    · have hname := List.find?_some hs
      exact (beq_iff_eq.mp hname).symm
  · intro h
    rw [← ofName?_lower, h, ofName?_name]

end Keyword

namespace Statement

/-! ## The grammar -/

/-- An operand: a temp field, alone or in brackets, an address in brackets, or a value. -/
inductive OperandForm : List Token → Operand → Prop
  | temp {field : Temp} {location : Location} :
      OperandForm [⟨.temp field, location⟩] ⟨.temp field, location⟩
  | tempCell {field : Temp} {location inside closing : Location} :
      OperandForm
        [⟨.mark .leftBracket, location⟩, ⟨.temp field, inside⟩, ⟨.mark .rightBracket, closing⟩]
        ⟨.temp field, location⟩
  | memory {location closing : Location} {tokens : List Token} {e : Expr} :
      Expr.Derives 0 tokens e →
      OperandForm
        (⟨.mark .leftBracket, location⟩ :: tokens ++ [⟨.mark .rightBracket, closing⟩])
        ⟨.memory e, location⟩
  | immediate {first : Token} {rest : List Token} {e : Expr} :
      Expr.Derives 0 (first :: rest) e →
      OperandForm (first :: rest) ⟨.immediate e, first.location⟩

/-- A value of a data directive: an expression, or, for bytes, a string. -/
inductive DatumForm : DataSize → List Token → Datum → Prop
  | value {size : DataSize} {tokens : List Token} {e : Expr} :
      Expr.Derives 0 tokens e → DatumForm size tokens (.value e)
  | text {text : String} {location : Location} :
      DatumForm .byte [⟨.string text, location⟩] (.text text)

/-- One or more things with commas between them. -/
inductive Separated {α : Type} (form : List Token → α → Prop) : List Token → List α → Prop
  | one {tokens : List Token} {a : α} : form tokens a → Separated form tokens [a]
  | more {tokens rest : List Token} {comma : Location} {a : α} {others : List α} :
      form tokens a → Separated form rest others →
      Separated form (tokens ++ ⟨.mark .comma, comma⟩ :: rest) (a :: others)

/-- The operands of an operation, of which there may be none. -/
inductive OperandsForm : List Token → List Operand → Prop
  | none : OperandsForm [] []
  | some {tokens : List Token} {operands : List Operand} :
      Separated OperandForm tokens operands → OperandsForm tokens operands

/-- A label that may stand before an item. -/
inductive TagForm : List Token → List Statement → Prop
  | none : TagForm [] []
  | label {name : String} {place colon : Location} :
      TagForm [⟨.identifier name, place⟩, ⟨.mark .colon, colon⟩] [.label name place]

/-- No operand that is jumped to is a temp field. -/
def TargetsKnown (op : Operation) : Prop :=
  ∀ operand field, (operand, Role.target) ∈ op.operands.zip op.opcode.roles →
    operand.access ≠ .temp field

/-- The forms of a line, and what they say. -/
inductive Form : List Token → List Statement → Prop
  | empty : Form [] []
  | label {name : String} {place colon : Location} :
      Form [⟨.identifier name, place⟩, ⟨.mark .colon, colon⟩] [.label name place]
  | operation {tag tokens : List Token} {labels : List Statement} {name : String}
      {location : Location} {op : Operation} :
      TagForm tag labels → Text.lower name = op.opcode.name → OperandsForm tokens op.operands →
      op.operands.length = op.opcode.arity → TargetsKnown op →
      Form (tag ++ ⟨.identifier name, location⟩ :: tokens)
        (labels ++ [.item (.operation op) location])
  | data {tag tokens : List Token} {labels : List Statement} {name : String}
      {location : Location} {size : DataSize} {values : List Datum} :
      TagForm tag labels → Text.lower name = size.dataName →
      Separated (DatumForm size) tokens values →
      Form (tag ++ ⟨.identifier name, location⟩ :: tokens)
        (labels ++ [.item (.data size values) location])
  | reserve {tag tokens : List Token} {labels : List Statement} {name : String}
      {location : Location} {size : DataSize} {count : Expr} :
      TagForm tag labels → Text.lower name = size.reserveName → Expr.Derives 0 tokens count →
      Form (tag ++ ⟨.identifier name, location⟩ :: tokens)
        (labels ++ [.item (.reserve size count) location])
  /-- The form `name: equ value`. -/
  | labelled {name word : String} {place colon location : Location} {tokens : List Token}
      {keyword : ConstantKeyword} {value : Expr} :
      Text.lower word = keyword.name → Expr.Derives 0 tokens value →
      Form
        (⟨.identifier name, place⟩ :: ⟨.mark .colon, colon⟩ :: ⟨.identifier word, location⟩
          :: tokens)
        [.constant keyword name value place]
  /-- The form `def name, value`. -/
  | listed {name word : String} {place comma location : Location} {tokens : List Token}
      {keyword : ConstantKeyword} {value : Expr} :
      Text.lower word = keyword.name → Expr.Derives 0 tokens value →
      Form
        (⟨.identifier word, location⟩ :: ⟨.identifier name, place⟩ :: ⟨.mark .comma, comma⟩
          :: tokens)
        [.constant keyword name value place]

/-- The line starts with a name and a constant keyword. -/
def NamesConstant (line : List Token) : Prop :=
  ∃ name place word location rest, ∃ keyword : ConstantKeyword,
    line = ⟨.identifier name, place⟩ :: ⟨.identifier word, location⟩ :: rest ∧
      Text.lower word = keyword.name

/-- What a line says: `name equ value` if it starts with a name and a constant keyword, and
otherwise one of the forms. -/
inductive Derives : List Token → List Statement → Prop
  | named {name word : String} {place location : Location} {tokens : List Token}
      {keyword : ConstantKeyword} {value : Expr} :
      Text.lower word = keyword.name → Expr.Derives 0 tokens value →
      Derives (⟨.identifier name, place⟩ :: ⟨.identifier word, location⟩ :: tokens)
        [.constant keyword name value place]
  | plain {line : List Token} {statements : List Statement} :
      ¬ NamesConstant line → Form line statements → Derives line statements

/-- What lines say, one after the other. -/
def LinesDerive (lines : List (List Token)) (statements : List Statement) : Prop :=
  ∃ groups, List.Forall₂ Derives lines groups ∧ statements = groups.flatten

/-! ## Cuts and expressions -/

/-- Tokens that no cut is made at, nor counted for one. -/
def Plain (kind : Token.Kind) : Prop :=
  opens kind = false ∧ closes kind = false ∧ kind ≠ .mark .comma ∧ kind ≠ .mark .colon

instance (kind : Token.Kind) : Decidable (Plain kind) := inferInstanceAs (Decidable (_ ∧ _))

theorem plain_number (value : Nat) : Plain (.number value) := ⟨rfl, rfl, nofun, nofun⟩

theorem plain_identifier (name : String) : Plain (.identifier name) := ⟨rfl, rfl, nofun, nofun⟩

theorem plain_string (text : String) : Plain (.string text) := ⟨rfl, rfl, nofun, nofun⟩

theorem plain_dollar : Plain (.mark .dollar) := by decide

/-- No binary operator cuts an expression. -/
theorem plain_of_mem_infixOps {level : Nat} {mark : Mark} {op : BinaryOp}
    (h : (mark, op) ∈ Expr.infixOps level) : Plain (.mark mark) := by
  have htable : ∀ pair ∈ Expr.infixOps level, Plain (.mark pair.1) := by
    match level with
    | 0 | 1 | 2 | 3 | 4 | 5 => decide
    | _ + 6 => exact fun pair hpair => absurd hpair List.not_mem_nil
  exact htable (mark, op) h

theorem plain_of_mem_prefixOps {mark : Mark} {op : UnaryOp} (h : (mark, op) ∈ Expr.prefixOps) :
    Plain (.mark mark) := by
  have htable : ∀ pair ∈ Expr.prefixOps, Plain (.mark pair.1) := by decide
  exact htable (mark, op) h

/-- The tokens that an expression can start with. -/
theorem derives_head {level : Nat} {token : Token} {rest : List Token} {e : Expr}
    (h : Expr.Derives level (token :: rest) e) :
    token.kind ≠ .mark .colon ∧ token.kind ≠ .mark .leftBracket ∧
      (∀ field, token.kind ≠ .temp field) ∧ ∀ text, token.kind ≠ .string text := by
  generalize htokens : token :: rest = tokens at h
  -- by induction on the derivation, whose first token is that of its leftmost part
  induction h generalizing token rest with
  | number | identifier | here | paren =>
      obtain ⟨rfl, -⟩ := List.cons.inj htokens
      exact ⟨nofun, nofun, nofun, nofun⟩
  | @unary mark _ _ _ _ hop =>
      obtain ⟨rfl, -⟩ := List.cons.inj htokens
      have hplain := plain_of_mem_prefixOps hop
      refine ⟨hplain.2.2.2, ?_, nofun, nofun⟩
      intro hkind
      rw [show mark = .leftBracket from Token.Kind.mark.inj hkind] at hplain
      exact absurd hplain (by decide)
  | binary _ hleft _ ihleft _ =>
      obtain ⟨first, more, rfl⟩ := List.exists_cons_of_ne_nil hleft.ne_nil
      obtain ⟨rfl, -⟩ := List.cons.inj htokens
      exact ihleft rfl
  | tighter _ ih => exact ih htokens

/-- Collecting takes tokens from the front and leaves the others. -/
theorem collect_fst_append_snd (stop : Option Mark) (depth : Nat) (tokens : List Token) :
    (collect stop depth tokens).1 ++ (collect stop depth tokens).2 = tokens := by
  fun_induction collect stop depth tokens with
  | case1 => rfl
  | case2 => rfl
  | case3 _ _ _ _ _ _ _ hrest ih =>
      rw [hrest] at ih
      exact congrArg _ ih

section Cuts

variable {stop : Option Mark}

/-- A plain token is collected. -/
theorem collect_of_plain (hstop : stop = none ∨ stop = some .comma ∨ stop = some .rightBracket)
    {token : Token} (h : Plain token.kind) (depth : Nat) (rest : List Token) :
    collect stop depth (token :: rest) =
      (token :: (collect stop depth rest).1, (collect stop depth rest).2) := by
  obtain ⟨hopens, hcloses, hcomma, -⟩ := h
  have hne : some token.kind ≠ stop.map .mark := by
    rcases hstop with rfl | rfl | rfl
    · nofun
    · exact fun heq => hcomma (Option.some.inj heq)
    · intro heq
      rw [Option.some.inj heq] at hcloses
      cases hcloses
  rw [collect, if_neg (by simp [hne, hcloses])]
  simp [hopens, hcloses]

/-- An opening parenthesis is collected and goes deeper. -/
theorem collect_leftParen
    (hstop : stop = none ∨ stop = some .comma ∨ stop = some .rightBracket)
    (location : Location) (depth : Nat) (rest : List Token) :
    collect stop depth (⟨.mark .leftParen, location⟩ :: rest) =
      (⟨.mark .leftParen, location⟩ :: (collect stop (depth + 1) rest).1,
        (collect stop (depth + 1) rest).2) := by
  have hne : some (Token.Kind.mark .leftParen) ≠ stop.map .mark := by
    rcases hstop with rfl | rfl | rfl <;> decide
  rw [collect, if_neg (by simp [hne, closes])]
  rfl

/-- A closing one comes back up. -/
theorem collect_rightParen (location : Location) (depth : Nat) (rest : List Token) :
    collect stop (depth + 1) (⟨.mark .rightParen, location⟩ :: rest) =
      (⟨.mark .rightParen, location⟩ :: (collect stop depth rest).1,
        (collect stop depth rest).2) := by
  rw [collect, if_neg (by omega)]
  rfl

/-- A cut does not go through an expression. -/
theorem collect_append (hstop : stop = none ∨ stop = some .comma ∨ stop = some .rightBracket)
    {level : Nat} {tokens : List Token} {e : Expr} (h : Expr.Derives level tokens e) (depth : Nat)
    (rest : List Token) :
    collect stop depth (tokens ++ rest) =
      (tokens ++ (collect stop depth rest).1, (collect stop depth rest).2) := by
  -- by induction on the derivation: parentheses are left again, and no other token is one to stop
  -- at
  induction h generalizing depth rest with
  | number => exact collect_of_plain hstop (plain_number _) depth rest
  | identifier => exact collect_of_plain hstop (plain_identifier _) depth rest
  | here => exact collect_of_plain hstop plain_dollar depth rest
  | @paren opening closing tokens e _ ih =>
      rw [List.append_assoc, List.cons_append, collect_leftParen hstop, ih, List.singleton_append,
        collect_rightParen]
      simp
  | unary hop _ ih =>
      rw [List.cons_append, collect_of_plain hstop (plain_of_mem_prefixOps hop), ih]
      rfl
  | binary hop _ _ ihleft ihright =>
      rw [List.append_assoc, List.cons_append, ihleft,
        collect_of_plain hstop (plain_of_mem_infixOps hop), ihright]
      simp
  | tighter _ ih => exact ih depth rest

end Cuts

/-- A plain token belongs to the argument that is being read. -/
theorem splitArguments_of_plain {token : Token} (h : Plain token.kind) (location : Location)
    (first : Bool) (depth : Int) (current rest : List Token) :
    splitArguments location first depth current (token :: rest) =
      splitArguments location first depth (token :: current) rest := by
  obtain ⟨hopens, hcloses, hcomma, -⟩ := h
  rw [splitArguments, if_neg (fun hcut => hcomma hcut.1)]
  simp [hopens, hcloses]

/-- The commas of a list are not those of an expression in it, which has none. -/
theorem splitArguments_append {level : Nat} {tokens : List Token} {e : Expr}
    (h : Expr.Derives level tokens e) (location : Location) (first : Bool) (depth : Int)
    (current rest : List Token) :
    splitArguments location first depth current (tokens ++ rest) =
      splitArguments location first depth (tokens.reverse ++ current) rest := by
  induction h generalizing depth current rest with
  | number => exact splitArguments_of_plain (plain_number _) location first depth current rest
  | identifier =>
      exact splitArguments_of_plain (plain_identifier _) location first depth current rest
  | here => exact splitArguments_of_plain plain_dollar location first depth current rest
  -- the depth that an opening parenthesis adds is taken off by its closing one
  | @paren opening closing tokens e _ ih =>
      rw [List.append_assoc, List.cons_append, splitArguments, if_neg (by simp)]
      show splitArguments location first (depth + 1) _ _ = _
      rw [ih, List.singleton_append, splitArguments, if_neg (by simp)]
      show splitArguments location first (depth + 1 - 1) _ _ = _
      rw [Int.add_sub_cancel]
      simp
  | unary hop _ ih =>
      rw [List.cons_append, splitArguments_of_plain (plain_of_mem_prefixOps hop), ih]
      simp
  | binary hop _ _ ihleft ihright =>
      rw [List.append_assoc, List.cons_append, ihleft,
        splitArguments_of_plain (plain_of_mem_infixOps hop), ihright]
      simp
  | tighter _ ih => exact ih depth current rest

/-! ## Operands -/

/-- The expressions of lines are those of the grammar. -/
theorem readExpr_eq_ok {tokens : List Token} {location : Location} {e : Expr} :
    readExpr tokens location = .ok e ↔ Expr.Derives 0 tokens e := by
  rw [readExpr, ← @Expr.ofTokens_eq_ok tokens (some location)]
  cases Expr.ofTokens tokens (some location) <;> simp

/-- What is read in brackets is a memory operand. -/
theorem operandForm_of_readMemory {start closing : Location} {inside : List Token}
    {operand : Operand} (h : readMemory start inside = .ok operand) :
    OperandForm (⟨.mark .leftBracket, start⟩ :: inside ++ [⟨.mark .rightBracket, closing⟩])
      operand := by
  unfold readMemory at h
  split at h
  · cases h
  · obtain rfl := Except.ok.inj h
    exact .tempCell
  · obtain ⟨address, hread, hok⟩ := Folding.bind_eq_ok.mp h
    obtain rfl := Except.ok.inj hok
    exact .memory (readExpr_eq_ok.mp hread)

/-- What is read as an operand has one of its forms. -/
theorem operandForm_of_readOperand {stop : Location} {tokens rest : List Token}
    {operand : Operand} (h : readOperand stop tokens = .ok (operand, rest)) :
    ∃ own, tokens = own ++ rest ∧ OperandForm own operand := by
  cases tokens with
  | nil => cases h
  | cons token tokens =>
      obtain ⟨kind, location⟩ := token
      rw [readOperand] at h
      -- the first token tells the form: a temp field, an address in brackets, or a value
      split at h
      case h_1 field hkind =>
        obtain rfl : kind = _ := hkind
        obtain ⟨rfl, rfl⟩ := Prod.mk.inj (Except.ok.inj h)
        exact ⟨_, rfl, .temp⟩
      case h_2 hkind =>
        obtain rfl : kind = _ := hkind
        -- the address is what stands before the bracket that closes it
        have hcut := collect_fst_append_snd (some .rightBracket) 0 tokens
        rcases hcollect : collect (some .rightBracket) 0 tokens with ⟨inside, after⟩
        simp only [hcollect] at h hcut
        split at h
        · cases h
        · next closing after' =>
          split_ifs at h with hclosing
          · obtain ⟨kind', place⟩ := closing
            obtain rfl : kind' = _ := hclosing
            obtain ⟨found, hread, hok⟩ := Folding.bind_eq_ok.mp h
            obtain ⟨rfl, rfl⟩ := Prod.mk.inj (Except.ok.inj hok)
            have hform : OperandForm
                (⟨.mark .leftBracket, location⟩ :: inside ++ [⟨.mark .rightBracket, place⟩])
                found :=
              operandForm_of_readMemory hread
            refine ⟨_, ?_, hform⟩
            rw [← hcut]
            simp
          · cases h
      case h_3 =>
        -- a value goes on up to the next comma outside of parentheses
        have hcut := collect_fst_append_snd (some .comma) 0 (⟨kind, location⟩ :: tokens)
        split at h
        · cases h
        · next own after hne hcollect =>
          obtain ⟨value, hread, hok⟩ := Folding.bind_eq_ok.mp h
          obtain ⟨rfl, rfl⟩ := Prod.mk.inj (Except.ok.inj hok)
          rw [hcollect] at hcut
          have hderives := readExpr_eq_ok.mp hread
          obtain ⟨first, more, rfl⟩ := List.exists_cons_of_ne_nil hderives.ne_nil
          obtain ⟨rfl, -⟩ := List.cons.inj hcut
          exact ⟨_, hcut.symm, .immediate hderives⟩

/-- What can follow an operand. -/
def EndsOperand (rest : List Token) : Prop :=
  rest = [] ∨ ∃ comma more, rest = ⟨.mark .comma, comma⟩ :: more

/-- An operand ends where nothing is left, or at a comma. -/
theorem collect_comma {rest : List Token} (h : EndsOperand rest) :
    collect (some .comma) 0 rest = ([], rest) := by
  obtain rfl | ⟨comma, more, rfl⟩ := h
  · rfl
  · rw [collect, if_pos (by simp)]

/-- A form of an operand is read as it, wherever operands may end. -/
theorem readOperand_of_form {own rest : List Token} {operand : Operand}
    (h : OperandForm own operand) (stop : Location) (hrest : EndsOperand rest) :
    readOperand stop (own ++ rest) = .ok (operand, rest) := by
  cases h with
  | temp => rfl
  | tempCell => rfl
  | @memory location closing tokens e hderives =>
      -- The brackets and parentheses inside of the address are closed before its own bracket is.
      have hcollect : collect (some .rightBracket) 0
          (tokens ++ ⟨.mark .rightBracket, closing⟩ :: rest) =
            (tokens, ⟨.mark .rightBracket, closing⟩ :: rest) := by
        rw [collect_append (.inr (.inr rfl)) hderives, collect, if_pos (by simp)]
        simp
      obtain ⟨first, more, rfl⟩ := List.exists_cons_of_ne_nil hderives.ne_nil
      have hmemory : readMemory location (first :: more) = .ok ⟨.memory e, location⟩ := by
        obtain ⟨-, -, htemp, -⟩ := derives_head hderives
        unfold readMemory
        split
        · next heq => cases heq
        · next field place heq =>
          obtain ⟨rfl, -⟩ := List.cons.inj heq
          exact absurd rfl (htemp field)
        · rw [readExpr_eq_ok.mpr hderives]
          rfl
      rw [List.append_assoc, List.singleton_append, List.cons_append, readOperand]
      simp only [hcollect, if_pos, hmemory]
      rfl
  | @immediate first more e hderives =>
      -- No expression starts like one of the other forms.
      obtain ⟨-, hbracket, htemp, -⟩ := derives_head hderives
      have hcollect : collect (some .comma) 0 (first :: more ++ rest) =
          (first :: more, rest) := by
        rw [collect_append (.inr (.inl rfl)) hderives, collect_comma hrest]
        simp
      rw [List.cons_append] at hcollect ⊢
      rw [readOperand]
      split
      · next field heq => exact absurd heq (htemp field)
      · next heq => exact absurd heq hbracket
      · simp only [hcollect, readExpr_eq_ok.mpr hderives]
        rfl

theorem OperandForm.ne_nil {own : List Token} {operand : Operand} (h : OperandForm own operand) :
    own ≠ [] := by
  cases h <;> exact List.cons_ne_nil _ _

/-- What is read as operands is separated by commas. -/
theorem separated_of_readOperandsWithin {stop : Location} {rounds : Nat}
    {tokens rest : List Token} {operands : List Operand} (hrounds : tokens.length < rounds)
    (h : readOperandsWithin stop rounds tokens = .ok (operands, rest)) :
    ∃ own, tokens = own ++ rest ∧ Separated OperandForm own operands := by
  induction rounds generalizing tokens operands rest with
  | zero => omega
  | succ rounds ih =>
      rw [readOperandsWithin] at h
      obtain ⟨⟨operand, after⟩, hread, hrest⟩ := Folding.bind_eq_ok.mp h
      obtain ⟨own, rfl, hform⟩ := operandForm_of_readOperand hread
      simp only at hrest
      split at hrest
      case h_1 comma more =>
        obtain ⟨⟨others, last⟩, hothers, hok⟩ := Folding.bind_eq_ok.mp hrest
        obtain ⟨rfl, rfl⟩ := Prod.mk.inj (Except.ok.inj hok)
        -- Each round takes a comma at least, so that the rounds are enough.
        have hshort : more.length < rounds := by
          simp only [List.length_append, List.length_cons] at hrounds
          omega
        obtain ⟨owns, rfl, hseparated⟩ := ih hshort hothers
        exact ⟨_, by rw [List.append_assoc]; rfl, .more hform hseparated⟩
      case h_2 =>
        obtain ⟨rfl, rfl⟩ := Prod.mk.inj (Except.ok.inj hrest)
        exact ⟨own, rfl, .one hform⟩

/-- Operands between commas are read, in as many rounds as there are tokens. -/
theorem readOperandsWithin_of_separated {rounds : Nat} {tokens : List Token}
    {operands : List Operand} (h : Separated OperandForm tokens operands) (stop : Location)
    (hrounds : tokens.length < rounds) :
    readOperandsWithin stop rounds tokens = .ok (operands, []) := by
  -- by induction on the operands; every round reads at least one token
  induction h generalizing rounds with
  | @one tokens operand hform =>
      obtain ⟨rounds, rfl⟩ : ∃ n, rounds = n + 1 := ⟨rounds - 1, by omega⟩
      have hread : readOperand stop (tokens ++ []) = .ok (operand, []) :=
        readOperand_of_form hform stop (.inl rfl)
      rw [List.append_nil] at hread
      rw [readOperandsWithin, hread]
      rfl
  | @more tokens rest comma operand others hform _ ih =>
      obtain ⟨rounds, rfl⟩ : ∃ n, rounds = n + 1 := ⟨rounds - 1, by omega⟩
      have hread := readOperand_of_form hform stop (.inr ⟨comma, rest, rfl⟩)
      have hothers : readOperandsWithin stop rounds rest = .ok (others, []) := by
        apply ih
        simp only [List.length_append, List.length_cons] at hrounds
        omega
      rw [readOperandsWithin, Folding.bind_eq_ok]
      exact ⟨_, hread, Folding.bind_eq_ok.mpr ⟨_, hothers, rfl⟩⟩

/-- The operands of a line are read exactly if they have the forms. -/
theorem readOperands_eq_ok {stop : Location} {tokens : List Token} {operands : List Operand} :
    readOperands stop tokens = .ok (operands, []) ↔ OperandsForm tokens operands := by
  rw [readOperands]
  constructor
  · intro h
    split_ifs at h with hempty
    · obtain ⟨rfl, -⟩ := Prod.mk.inj (Except.ok.inj h)
      rw [List.isEmpty_iff.mp hempty]
      exact .none
    · obtain ⟨own, rfl, hseparated⟩ := separated_of_readOperandsWithin (Nat.lt_succ_self _) h
      rw [List.append_nil]
      exact .some hseparated
  · intro h
    cases h with
    | none => rfl
    | some hseparated =>
        -- operands are never empty, so neither is a row of them
        have hne : tokens.isEmpty = false := by
          cases hseparated with
          | one hform => simpa using hform.ne_nil
          | more => simp
        rw [hne]
        exact readOperandsWithin_of_separated hseparated stop (Nat.lt_succ_self _)

/-! ## Operations -/

/-- An operation is known by its opcode and its operands. -/
theorem ofOperands?_eq_some {opcode : Opcode} {operands : List Operand} {op : Operation} :
    Operation.ofOperands? opcode operands = some op ↔
      op.opcode = opcode ∧ op.operands = operands := by
  constructor
  · intro h
    unfold Operation.ofOperands? at h
    split at h <;> cases h <;> exact ⟨rfl, rfl⟩
  · rintro ⟨rfl, rfl⟩
    cases op <;> rfl

/-- It has as many operands as its opcode asks for. -/
theorem length_operands (op : Operation) : op.operands.length = op.opcode.arity := by
  cases op <;> rfl

/-- No target is a temp field if the check passes. -/
theorem checkTargets_eq_ok {operands : List Operand} {roles : List Role} :
    checkTargets operands roles = .ok () ↔
      ∀ operand field, (operand, Role.target) ∈ operands.zip roles →
        operand.access ≠ .temp field := by
  fun_induction checkTargets operands roles with
  | case1 field location operands roles =>
      constructor
      · intro h
        cases h
      · intro h
        exact absurd rfl (h ⟨.temp field, location⟩ field (by simp))
  | case2 first operands role roles hfirst ih =>
      rw [ih]
      constructor
      · intro h operand field hmem
        rw [List.zip_cons_cons, List.mem_cons] at hmem
        rcases hmem with heq | hmem
        · obtain ⟨rfl, rfl⟩ := Prod.mk.inj heq
          intro haccess
          exact hfirst field operand.location (by rw [← haccess]) rfl
        · exact h operand field hmem
      · intro h operand field hmem
        exact h operand field (by rw [List.zip_cons_cons]; exact List.mem_cons_of_mem _ hmem)
  | case3 operands roles _ hshort =>
      -- One of the lists has ended, and there is nothing left to check.
      have hzip : operands.zip roles = [] := by
        rw [List.zip_eq_nil_iff]
        cases operands with
        | nil => exact .inl rfl
        | cons operand operands =>
            cases roles with
            | nil => exact .inr rfl
            | cons role roles => exact (hshort _ _ _ _ rfl rfl).elim
      simp [hzip]

/-- A line ends where no token is left. -/
theorem checkLineEnd_eq_ok {rest : List Token} : checkLineEnd rest = .ok () ↔ rest = [] := by
  cases rest with
  | nil => exact iff_of_true rfl rfl
  | cons token rest => exact iff_of_false nofun nofun

/-- An operation is read exactly if its operands have the forms, are as many as asked for, and no
target is a temp field. -/
theorem readOperation_eq_ok {opcode : Opcode} {location stop : Location} {tokens : List Token}
    {body : Body} :
    readOperation opcode location stop tokens = .ok (body, []) ↔
      ∃ op, body = .operation op ∧ op.opcode = opcode ∧ OperandsForm tokens op.operands ∧
        TargetsKnown op := by
  rw [readOperation, Folding.bind_eq_ok]
  constructor
  · rintro ⟨⟨operands, rest⟩, hread, h⟩
    -- an opcode with the wrong number of operands is refused before its targets are looked at
    cases hop : Operation.ofOperands? opcode operands with
    | none =>
        simp only [hop] at h
        cases h
    | some op =>
        simp only [hop, Folding.bind_eq_ok] at h
        obtain ⟨⟨⟩, htargets, hok⟩ := h
        obtain ⟨rfl, rfl⟩ := Prod.mk.inj (Except.ok.inj hok)
        obtain ⟨rfl, rfl⟩ := ofOperands?_eq_some.mp hop
        exact ⟨op, rfl, rfl, readOperands_eq_ok.mp hread, checkTargets_eq_ok.mp htargets⟩
  · rintro ⟨op, rfl, rfl, hoperands, htargets⟩
    refine ⟨_, readOperands_eq_ok.mpr hoperands, ?_⟩
    simp only [ofOperands?_eq_some.mpr ⟨rfl, rfl⟩, Folding.bind_eq_ok]
    exact ⟨(), checkTargets_eq_ok.mpr htargets, trivial⟩

/-! ## Data and reserved cells -/

/-- The arguments of a directive are its tokens between the commas. -/
theorem separated_of_splitArguments {location : Location} {first : Bool} {depth : Int}
    {current tokens : List Token} {arguments : List (List Token)}
    (h : splitArguments location first depth current tokens = .ok arguments) :
    (first = true ∧ arguments = []) ∨
      Separated (fun own argument => argument = own) (current.reverse ++ tokens) arguments := by
  induction tokens generalizing first depth current arguments with
  | nil =>
      rw [splitArguments] at h
      split_ifs at h with hcurrent hfirst
      · obtain rfl := Except.ok.inj h
        rw [List.append_nil]
        exact .inr (.one rfl)
      · exact .inl ⟨hfirst, (Except.ok.inj h).symm⟩
      · cases h
  | cons token rest ih =>
      rw [splitArguments] at h
      by_cases hcut : token.kind = .mark .comma ∧ depth = 0
      · rw [if_pos hcut] at h
        split_ifs at h with hcurrent
        · cases h
        · obtain ⟨others, hothers, hok⟩ := Folding.bind_eq_ok.mp h
          obtain rfl := Except.ok.inj hok
          obtain ⟨kind, comma⟩ := token
          obtain rfl : kind = _ := hcut.1
          rcases ih hothers with ⟨hfirst, -⟩ | hseparated
          · cases hfirst
          · exact .inr (.more rfl hseparated)
      · -- A comma between parentheses belongs to the argument, as all other tokens do.
        rw [if_neg hcut] at h
        rcases ih h with hnone | hseparated
        · exact .inl hnone
        · rw [List.reverse_cons, List.append_assoc] at hseparated
          exact .inr hseparated

/-- Tokens that are all of one argument, whatever comes before and after them. -/
def Uncut (tokens : List Token) : Prop :=
  tokens ≠ [] ∧ ∀ location first depth current rest,
    splitArguments location first depth current (tokens ++ rest) =
      splitArguments location first depth (tokens.reverse ++ current) rest

/-- An expression is not cut between its tokens. -/
theorem uncut_of_derives {level : Nat} {tokens : List Token} {e : Expr}
    (h : Expr.Derives level tokens e) : Uncut tokens :=
  ⟨h.ne_nil, splitArguments_append h⟩

theorem uncut_of_form {size : DataSize} {tokens : List Token} {datum : Datum}
    (h : DatumForm size tokens datum) : Uncut tokens := by
  cases h with
  | value hderives => exact uncut_of_derives hderives
  | text => exact ⟨List.cons_ne_nil _ _, splitArguments_of_plain (plain_string _)⟩

/-- Arguments between commas are split at the commas. -/
theorem splitArguments_of_separated {α : Type} {form : List Token → α → Prop}
    (hform : ∀ {own a}, form own a → Uncut own) {tokens : List Token} {as : List α}
    (h : Separated form tokens as) (location : Location) (first : Bool) :
    ∃ arguments, splitArguments location first 0 [] tokens = .ok arguments ∧
      List.Forall₂ form arguments as := by
  -- by induction on the arguments; each is read as one piece, and a comma starts the next
  induction h generalizing first with
  | @one tokens a ha =>
      obtain ⟨hne, hskip⟩ := hform ha
      refine ⟨[tokens], ?_, .cons ha .nil⟩
      have hread := hskip location first 0 [] []
      rw [List.append_nil, List.append_nil] at hread
      rw [hread, splitArguments, if_pos (by simpa using hne), List.reverse_reverse]
  | @more tokens rest comma a others ha _ ih =>
      obtain ⟨hne, hskip⟩ := hform ha
      obtain ⟨arguments, harguments, hforms⟩ := ih false
      refine ⟨tokens :: arguments, ?_, .cons ha hforms⟩
      rw [hskip, List.append_nil, splitArguments, if_pos ⟨rfl, rfl⟩,
        if_neg (by simpa using hne), harguments, List.reverse_reverse]
      rfl

/-- A datum of bytes is read exactly if it has a form. -/
theorem readDatum_eq_ok {location : Location} {tokens : List Token} {datum : Datum} :
    readDatum location tokens = .ok datum ↔ DatumForm .byte tokens datum := by
  constructor
  · intro h
    unfold readDatum at h
    split at h
    · obtain rfl := Except.ok.inj h
      exact .text
    · obtain ⟨value, hread, hok⟩ := Folding.bind_eq_ok.mp h
      obtain rfl := Except.ok.inj hok
      exact .value (readExpr_eq_ok.mp hread)
  · intro h
    cases h with
    | text => rfl
    | value hderives =>
        -- an expression does not start with a string
        unfold readDatum
        split
        · next text place =>
          obtain ⟨-, -, -, hstring⟩ := derives_head hderives
          exact absurd rfl (hstring text)
        · exact Folding.bind_eq_ok.mpr ⟨_, readExpr_eq_ok.mpr hderives, rfl⟩

/-- Texts are data of bytes only. -/
theorem datumForm_iff {size : DataSize} {tokens : List Token} {datum : Datum} :
    DatumForm size tokens datum ↔
      DatumForm .byte tokens datum ∧ (size ≠ .byte → isText datum = false) := by
  constructor
  · intro h
    cases h with
    | value hderives => exact ⟨.value hderives, fun _ => rfl⟩
    | text => exact ⟨.text, fun hne => absurd rfl hne⟩
  · rintro ⟨h, hsize⟩
    cases h with
    | value hderives => exact .value hderives
    | text =>
        by_cases hbyte : size = .byte
        · rw [hbyte]
          exact .text
        · cases hsize hbyte

/-- Data of all other sizes is data of bytes without strings. -/
theorem separated_datumForm_iff {size : DataSize} {tokens : List Token} {values : List Datum} :
    Separated (DatumForm size) tokens values ↔
      Separated (DatumForm .byte) tokens values ∧ ¬ (size ≠ .byte ∧ values.any isText) := by
  -- strings are allowed in bytes only, and everything else is read alike
  constructor
  · intro h
    induction h with
    | one hvalue =>
        obtain ⟨hbyte, htext⟩ := datumForm_iff.mp hvalue
        refine ⟨.one hbyte, fun hstring => ?_⟩
        simp [htext hstring.1] at hstring
    | more hvalue _ ih =>
        obtain ⟨hbyte, htext⟩ := datumForm_iff.mp hvalue
        refine ⟨.more hbyte ih.1, fun hstring => ih.2 ⟨hstring.1, ?_⟩⟩
        simpa [htext hstring.1] using hstring.2
  · rintro ⟨h, hstring⟩
    induction h with
    | one hvalue =>
        exact .one (datumForm_iff.mpr ⟨hvalue, fun hsize => by simpa [hsize] using hstring⟩)
    | more hvalue _ ih =>
        rw [List.any_cons, Bool.or_eq_true, not_and_or, not_or] at hstring
        refine .more (datumForm_iff.mpr ⟨hvalue, fun hsize => ?_⟩) (ih ?_)
        · simpa [hsize] using (hstring.resolve_left (not_not.mpr hsize)).1
        · rintro ⟨hsize, hany⟩
          exact (hstring.resolve_left (not_not.mpr hsize)).2 hany

/-- Arguments between commas have the forms of what they are read as. -/
theorem Separated.of_arguments {α : Type} {form : List Token → α → Prop} {tokens : List Token}
    {arguments : List (List Token)} {as : List α}
    (h : Separated (fun own argument => argument = own) tokens arguments)
    (hforms : List.Forall₂ form arguments as) : Separated form tokens as := by
  induction h generalizing as with
  | one hown =>
      obtain ⟨a, as, ha, has, rfl⟩ := List.forall₂_cons_left_iff.mp hforms
      obtain rfl := List.forall₂_nil_left_iff.mp has
      exact .one (hown ▸ ha)
  | more hown _ ih =>
      obtain ⟨a, as, ha, has, rfl⟩ := List.forall₂_cons_left_iff.mp hforms
      exact .more (hown ▸ ha) (ih has)

/-- There is at least one part between commas. -/
theorem Separated.ne_nil {α : Type} {form : List Token → α → Prop} {tokens : List Token}
    {as : List α} (h : Separated form tokens as) : as ≠ [] := by
  cases h <;> exact List.cons_ne_nil _ _

/-- A data directive is read exactly if its data have the forms. -/
theorem readData_eq_ok {size : DataSize} {location : Location} {tokens : List Token}
    {body : Body} :
    readData size location tokens = .ok body ↔
      ∃ values, body = .data size values ∧ Separated (DatumForm size) tokens values := by
  simp only [readData, Folding.bind_eq_ok, Folding.mapM_eq_ok, readDatum_eq_ok]
  constructor
  · rintro ⟨arguments, hsplit, values, hvalues, h⟩
    split_ifs at h with hempty hstring
    · cases h
    · cases h
    · obtain rfl := Except.ok.inj h
      refine ⟨values, rfl, separated_datumForm_iff.mpr ⟨?_, hstring⟩⟩
      -- No tokens at all are cut into no arguments, and that is refused.
      rcases separated_of_splitArguments hsplit with ⟨-, rfl⟩ | hseparated
      · obtain rfl := List.forall₂_nil_left_iff.mp hvalues
        exact absurd rfl hempty
      · exact hseparated.of_arguments hvalues
  · rintro ⟨values, rfl, hseparated⟩
    obtain ⟨hbytes, hstring⟩ := separated_datumForm_iff.mp hseparated
    obtain ⟨arguments, hsplit, hforms⟩ :=
      splitArguments_of_separated uncut_of_form hbytes location true
    refine ⟨arguments, hsplit, values, hforms, ?_⟩
    rw [if_neg (by simpa using hseparated.ne_nil), if_neg hstring]

/-- A reserve directive is read exactly if its count is an expression. -/
theorem readReserve_eq_ok {size : DataSize} {location : Location} {tokens : List Token}
    {body : Body} :
    readReserve size location tokens = .ok body ↔
      ∃ count, body = .reserve size count ∧ Expr.Derives 0 tokens count := by
  rw [readReserve, Folding.bind_eq_ok]
  constructor
  · rintro ⟨arguments, hsplit, h⟩
    split at h
    case h_1 argument =>
      obtain ⟨count, hread, hok⟩ := Folding.bind_eq_ok.mp h
      obtain rfl := Except.ok.inj hok
      refine ⟨count, rfl, ?_⟩
      -- a count is one argument, so there is no comma outside of parentheses
      rcases separated_of_splitArguments hsplit with ⟨-, hnil⟩ | hseparated
      · cases hnil
      · cases hseparated with
        | one hown =>
            obtain rfl : argument = tokens := hown
            exact readExpr_eq_ok.mp hread
        | more _ hmore => exact absurd rfl hmore.ne_nil
    case h_2 => cases h
  · rintro ⟨count, rfl, hderives⟩
    have hone : Separated (Expr.Derives 0) tokens [count] := .one hderives
    obtain ⟨arguments, hsplit, hforms⟩ :=
      splitArguments_of_separated uncut_of_derives hone location true
    obtain ⟨argument, rest, hargument, hrest, rfl⟩ := List.forall₂_cons_right_iff.mp hforms
    obtain rfl := List.forall₂_nil_right_iff.mp hrest
    refine ⟨_, hsplit, ?_⟩
    exact Folding.bind_eq_ok.mpr ⟨count, readExpr_eq_ok.mpr hargument, rfl⟩

/-! ## Constants -/

/-- A definition is read exactly if its value is an expression. -/
theorem readDefinition_eq_ok {keyword : ConstantKeyword} {name : String}
    {label location : Location} {tokens : List Token} {statement : Statement} :
    readDefinition keyword name label location tokens = .ok (statement, []) ↔
      ∃ value, statement = .constant keyword name value label ∧ Expr.Derives 0 tokens value := by
  constructor
  · intro h
    have hcut := collect_fst_append_snd none 0 tokens
    rw [readDefinition] at h
    split at h
    case h_1 => cases h
    case h_2 first more rest hcollect =>
      obtain ⟨value, hread, hok⟩ := Folding.bind_eq_ok.mp h
      obtain ⟨rfl, rfl⟩ := Prod.mk.inj (Except.ok.inj hok)
      rw [hcollect, List.append_nil] at hcut
      exact ⟨value, rfl, hcut ▸ readExpr_eq_ok.mp hread⟩
  · rintro ⟨value, rfl, hderives⟩
    -- an expression is collected to the end of the line
    have hcollect : collect none 0 tokens = (tokens, []) := by
      simpa [collect] using collect_append (.inl rfl) hderives 0 []
    obtain ⟨first, more, rfl⟩ := List.exists_cons_of_ne_nil hderives.ne_nil
    rw [readDefinition, hcollect]
    exact Folding.bind_eq_ok.mpr ⟨value, readExpr_eq_ok.mpr hderives, rfl⟩

/-! ## Lines -/

/-- What follows the label of a line.  The label, if there is one, is that of an item or the name of
a constant. -/
inductive BodyForm :
    Option (String × Location) → String → Location → List Token → List Statement → Prop
  | labelled {name word : String} {place location : Location} {tokens : List Token}
      {keyword : ConstantKeyword} {value : Expr} :
      Text.lower word = keyword.name → Expr.Derives 0 tokens value →
      BodyForm (some (name, place)) word location tokens [.constant keyword name value place]
  | listed {name word : String} {place comma location : Location} {tokens : List Token}
      {keyword : ConstantKeyword} {value : Expr} :
      Text.lower word = keyword.name → Expr.Derives 0 tokens value →
      BodyForm none word location (⟨.identifier name, place⟩ :: ⟨.mark .comma, comma⟩ :: tokens)
        [.constant keyword name value place]
  | operation {label : Option (String × Location)} {name : String} {location : Location}
      {tokens : List Token} {op : Operation} :
      Text.lower name = op.opcode.name → OperandsForm tokens op.operands → TargetsKnown op →
      BodyForm label name location tokens (labels label ++ [.item (.operation op) location])
  | data {label : Option (String × Location)} {name : String} {location : Location}
      {tokens : List Token} {size : DataSize} {values : List Datum} :
      Text.lower name = size.dataName → Separated (DatumForm size) tokens values →
      BodyForm label name location tokens (labels label ++ [.item (.data size values) location])
  | reserve {label : Option (String × Location)} {name : String} {location : Location}
      {tokens : List Token} {size : DataSize} {count : Expr} :
      Text.lower name = size.reserveName → Expr.Derives 0 tokens count →
      BodyForm label name location tokens (labels label ++ [.item (.reserve size count) location])

variable {label : Option (String × Location)} {name : String} {location stop : Location}
  {tokens : List Token} {statements : List Statement}

/-- What is read as a constant has the form of one. -/
theorem bodyForm_of_readConstant {keyword : ConstantKeyword} {statement : Statement}
    (hname : Text.lower name = keyword.name)
    (h : readConstant keyword label location stop tokens = .ok (statement, [])) :
    BodyForm label name location tokens [statement] := by
  unfold readConstant at h
  split at h
  · obtain ⟨value, rfl, hderives⟩ := readDefinition_eq_ok.mp h
    exact .labelled hname hderives
  · split at h
    · split at h
      · obtain ⟨value, rfl, hderives⟩ := readDefinition_eq_ok.mp h
        exact .listed hname hderives
      · cases h
      · cases h
    · cases h

/-- What is read behind a label has one of the forms. -/
theorem bodyForm_of_readBody (h : readBody label name location stop tokens = .ok statements) :
    BodyForm label name location tokens statements := by
  unfold readBody at h
  -- the keyword tells which of the four kinds of statements it is
  split at h
  case h_1 keyword hkeyword =>
    obtain ⟨⟨statement, rest⟩, hread, h⟩ := Folding.bind_eq_ok.mp h
    obtain ⟨⟨⟩, hend, hok⟩ := Folding.bind_eq_ok.mp h
    obtain rfl := checkLineEnd_eq_ok.mp hend
    obtain rfl := Except.ok.inj hok
    exact bodyForm_of_readConstant (Keyword.ofName?_eq_some.mp hkeyword) hread
  case h_2 opcode hkeyword =>
    obtain ⟨⟨body, rest⟩, hread, h⟩ := Folding.bind_eq_ok.mp h
    obtain ⟨⟨⟩, hend, hok⟩ := Folding.bind_eq_ok.mp h
    obtain rfl := checkLineEnd_eq_ok.mp hend
    obtain rfl := Except.ok.inj hok
    obtain ⟨op, rfl, rfl, hoperands, htargets⟩ := readOperation_eq_ok.mp hread
    exact .operation (Keyword.ofName?_eq_some.mp hkeyword) hoperands htargets
  case h_3 size hkeyword =>
    obtain ⟨body, hread, hok⟩ := Folding.bind_eq_ok.mp h
    obtain rfl := Except.ok.inj hok
    obtain ⟨values, rfl, hvalues⟩ := readData_eq_ok.mp hread
    exact .data (Keyword.ofName?_eq_some.mp hkeyword) hvalues
  case h_4 size hkeyword =>
    obtain ⟨body, hread, hok⟩ := Folding.bind_eq_ok.mp h
    obtain rfl := Except.ok.inj hok
    obtain ⟨count, rfl, hcount⟩ := readReserve_eq_ok.mp hread
    exact .reserve (Keyword.ofName?_eq_some.mp hkeyword) hcount
  case h_5 => cases h

/-- What has one of the forms is read behind a label. -/
theorem readBody_of_bodyForm (h : BodyForm label name location tokens statements)
    (stop : Location) : readBody label name location stop tokens = .ok statements := by
  cases h with
  | @labelled _ _ _ _ _ keyword _ hname hderives =>
      have hkeyword : _ = (Keyword.constant keyword).name := hname
      rw [readBody, Keyword.ofName?_eq_some.mpr hkeyword]
      exact Folding.bind_eq_ok.mpr ⟨_, readDefinition_eq_ok.mpr ⟨_, rfl, hderives⟩, rfl⟩
  | @listed _ _ _ _ _ _ keyword _ hname hderives =>
      have hkeyword : _ = (Keyword.constant keyword).name := hname
      rw [readBody, Keyword.ofName?_eq_some.mpr hkeyword]
      exact Folding.bind_eq_ok.mpr ⟨_, readDefinition_eq_ok.mpr ⟨_, rfl, hderives⟩, rfl⟩
  | @operation _ _ _ _ op hname hoperands htargets =>
      rw [readBody,
        Keyword.ofName?_eq_some.mpr (show _ = (Keyword.operation op.opcode).name from hname)]
      exact Folding.bind_eq_ok.mpr
        ⟨_, readOperation_eq_ok.mpr ⟨op, rfl, rfl, hoperands, htargets⟩, rfl⟩
  | @data _ _ _ _ size _ hname hvalues =>
      rw [readBody, Keyword.ofName?_eq_some.mpr (show _ = (Keyword.data size).name from hname)]
      exact Folding.bind_eq_ok.mpr ⟨_, readData_eq_ok.mpr ⟨_, rfl, hvalues⟩, rfl⟩
  | @reserve _ _ _ _ size _ hname hcount =>
      rw [readBody, Keyword.ofName?_eq_some.mpr (show _ = (Keyword.reserve size).name from hname)]
      exact Folding.bind_eq_ok.mpr ⟨_, readReserve_eq_ok.mpr ⟨_, rfl, hcount⟩, rfl⟩

/-- What follows a mnemonic does not make a label of it. -/
def NoColon (tokens : List Token) : Prop :=
  ∀ colon rest, tokens ≠ ⟨.mark .colon, colon⟩ :: rest

/-- No expression has a colon behind its first token. -/
theorem noColon_of_derives {level : Nat} {e : Expr} (h : Expr.Derives level tokens e) :
    NoColon tokens := by
  rintro colon rest rfl
  exact (derives_head h).1 rfl

/-- Neither has a list, if its parts have none. -/
theorem noColon_of_separated {α : Type} {form : List Token → α → Prop} {as : List α}
    (hform : ∀ {own a}, form own a → own ≠ [] ∧ NoColon own) (h : Separated form tokens as) :
    NoColon tokens := by
  cases h with
  | one ha => exact (hform ha).2
  | more ha _ =>
      obtain ⟨hne, hnoColon⟩ := hform ha
      obtain ⟨first, rest, rfl⟩ := List.exists_cons_of_ne_nil hne
      intro colon more heq
      obtain ⟨rfl, -⟩ := List.cons.inj heq
      exact hnoColon colon rest rfl

/-- Neither have operands. -/
theorem noColon_of_operands {operands : List Operand} (h : OperandsForm tokens operands) :
    NoColon tokens := by
  cases h with
  | none => exact fun _ _ => nofun
  | some hseparated =>
      refine noColon_of_separated (fun hform => ⟨hform.ne_nil, ?_⟩) hseparated
      cases hform with
      | temp | tempCell | memory => exact fun _ _ => nofun
      | immediate hderives => exact noColon_of_derives hderives

/-- Neither have data. -/
theorem noColon_of_data {size : DataSize} {values : List Datum}
    (h : Separated (DatumForm size) tokens values) : NoColon tokens := by
  refine noColon_of_separated (fun hform => ⟨(uncut_of_form hform).1, ?_⟩) h
  cases hform with
  | value hderives => exact noColon_of_derives hderives
  | text => exact fun _ _ => nofun

/-- Without a colon and without a constant there is no label. -/
theorem splitLabel_of_noColon {stop : Token} (hcolon : NoColon tokens)
    (hplain : ¬ NamesConstant (⟨.identifier name, location⟩ :: tokens)) :
    splitLabel ⟨⟨.identifier name, location⟩ :: tokens, some stop⟩ =
      (none, ⟨.identifier name, location⟩ :: tokens) := by
  unfold splitLabel
  split
  · next heq =>
    obtain ⟨-, rfl⟩ := List.cons.inj heq
    exact absurd rfl (hcolon _ _)
  · next name' place word next rest heq =>
    rw [if_neg]
    intro hword
    obtain ⟨keyword, hkeyword⟩ := Option.isSome_iff_exists.mp hword
    exact hplain ⟨name', place, word, next, rest, keyword, heq,
      ConstantKeyword.ofName?_eq_some.mp hkeyword⟩
  · rfl
  · rfl

/-- The name of a constant is its label. -/
theorem splitLabel_of_constant {stop : Option Token} {tag : String} {place : Location}
    {keyword : ConstantKeyword} (h : Text.lower name = keyword.name) :
    splitLabel ⟨⟨.identifier tag, place⟩ :: ⟨.identifier name, location⟩ :: tokens, stop⟩ =
      (some (tag, place), ⟨.identifier name, location⟩ :: tokens) := by
  refine if_pos ?_
  rw [ConstantKeyword.ofName?_eq_some.mpr h]
  rfl

/-- A line without a label is read from its mnemonic on. -/
theorem readLine_of_noColon {stop : Token} (hcolon : NoColon tokens)
    (hplain : ¬ NamesConstant (⟨.identifier name, location⟩ :: tokens))
    (h : BodyForm none name location tokens statements) :
    readLine ⟨⟨.identifier name, location⟩ :: tokens, some stop⟩ = .ok statements := by
  rw [readLine, splitLabel_of_noColon hcolon hplain]
  exact readBody_of_bodyForm h _

/-- A line with a label is read from behind the colon on. -/
theorem readLine_of_colon {stop : Token} {tag : String} {place colon : Location}
    (h : BodyForm (some (tag, place)) name location tokens statements) :
    readLine ⟨⟨.identifier tag, place⟩ :: ⟨.mark .colon, colon⟩ :: ⟨.identifier name, location⟩
      :: tokens, some stop⟩ = .ok statements := by
  rw [readLine, splitLabel]
  exact readBody_of_bodyForm h _

/-- A line of one of the forms is read as what it says. -/
theorem readLine_of_form {stop : Token} (hplain : ¬ NamesConstant tokens)
    (h : Form tokens statements) : readLine ⟨tokens, some stop⟩ = .ok statements := by
  cases h with
  | empty => rfl
  | label => rfl
  | operation htag hname hoperands _ htargets =>
      -- without a label the line must not be taken for the definition of a constant
      cases htag with
      | none =>
          exact readLine_of_noColon (noColon_of_operands hoperands) hplain
            (.operation hname hoperands htargets)
      | label => exact readLine_of_colon (.operation hname hoperands htargets)
  | data htag hname hvalues =>
      cases htag with
      | none => exact readLine_of_noColon (noColon_of_data hvalues) hplain (.data hname hvalues)
      | label => exact readLine_of_colon (.data hname hvalues)
  | reserve htag hname hcount =>
      cases htag with
      | none => exact readLine_of_noColon (noColon_of_derives hcount) hplain (.reserve hname hcount)
      | label => exact readLine_of_colon (.reserve hname hcount)
  | labelled hname hderives => exact readLine_of_colon (.labelled hname hderives)
  | listed hname hderives =>
      exact readLine_of_noColon (fun _ _ => nofun) hplain (.listed hname hderives)

/-- So is a line that the grammar derives. -/
theorem readLine_of_derives {stop : Token} (h : Derives tokens statements) :
    readLine ⟨tokens, some stop⟩ = .ok statements := by
  cases h with
  | named hname hderives =>
      rw [readLine, splitLabel_of_constant hname]
      exact readBody_of_bodyForm (.labelled hname hderives) _
  | plain hplain hform => exact readLine_of_form hplain hform

/-! ## What a line is read as -/

/-- A form without a label is a form of a line. -/
theorem form_of_bodyForm_none (h : BodyForm none name location tokens statements) :
    Form (⟨.identifier name, location⟩ :: tokens) statements := by
  cases h with
  | listed hname hderives => exact .listed hname hderives
  | @operation _ _ _ _ op hname hoperands htargets =>
      exact .operation .none hname hoperands (length_operands op) htargets
  | data hname hvalues => exact .data .none hname hvalues
  | reserve hname hcount => exact .reserve .none hname hcount

/-- So is a form behind a label and a colon. -/
theorem form_of_bodyForm_some {tag : String} {place colon : Location}
    (h : BodyForm (some (tag, place)) name location tokens statements) :
    Form (⟨.identifier tag, place⟩ :: ⟨.mark .colon, colon⟩ :: ⟨.identifier name, location⟩
      :: tokens) statements := by
  cases h with
  | labelled hname hderives => exact .labelled hname hderives
  | @operation _ _ _ _ op hname hoperands htargets =>
      exact .operation .label hname hoperands (length_operands op) htargets
  | data hname hvalues => exact .data .label hname hvalues
  | reserve hname hcount => exact .reserve .label hname hcount

/-- A constant behind its name is derived. -/
theorem derives_of_bodyForm_constant {tag : String} {place : Location}
    {keyword : ConstantKeyword} (hkeyword : Text.lower name = keyword.name)
    (h : BodyForm (some (tag, place)) name location tokens statements) :
    Derives (⟨.identifier tag, place⟩ :: ⟨.identifier name, location⟩ :: tokens) statements := by
  have hconstant := Keyword.ofName?_eq_some.mpr
    (show Text.lower name = (Keyword.constant keyword).name from hkeyword)
  -- No constant keyword is the mnemonic of an item.
  have hitem : ∀ other : Keyword, Text.lower name = other.name → other = .constant keyword :=
    fun other hother =>
      Option.some.inj ((Keyword.ofName?_eq_some.mpr hother).symm.trans hconstant)
  cases h with
  | labelled hname hderives => exact .named hname hderives
  | @operation _ _ _ _ op hname _ _ => cases hitem (.operation op.opcode) hname
  | @data _ _ _ _ size _ hname _ => cases hitem (.data size) hname
  | @reserve _ _ _ _ size _ hname _ => cases hitem (.reserve size) hname

theorem not_namesConstant_colon {tag : String} {place colon : Location} :
    ¬ NamesConstant (⟨.identifier tag, place⟩ :: ⟨.mark .colon, colon⟩ :: tokens) := by
  rintro ⟨_, _, _, _, _, _, heq, -⟩
  cases heq

/-- A line is cut behind its colon, or behind the name of the constant that it defines, or not at
all. -/
theorem splitLabel_cases (tokens : List Token) (stop : Token) :
    (∃ tag place colon rest,
      tokens = ⟨.identifier tag, place⟩ :: ⟨.mark .colon, colon⟩ :: rest ∧
        splitLabel ⟨tokens, some stop⟩ = (some (tag, place), rest)) ∨
    (∃ tag place name location rest, ∃ keyword : ConstantKeyword,
      tokens = ⟨.identifier tag, place⟩ :: ⟨.identifier name, location⟩ :: rest ∧
        Text.lower name = keyword.name ∧
        splitLabel ⟨tokens, some stop⟩ =
          (some (tag, place), ⟨.identifier name, location⟩ :: rest)) ∨
    (¬ NamesConstant tokens ∧ splitLabel ⟨tokens, some stop⟩ = (none, tokens)) := by
  -- The reader looks for a colon first, but behind a name there is either a colon or a keyword.
  by_cases hnames : NamesConstant tokens
  · obtain ⟨tag, place, name, location, rest, keyword, rfl, hname⟩ := hnames
    exact .inr (.inl ⟨tag, place, name, location, rest, keyword, rfl, hname,
      splitLabel_of_constant hname⟩)
  · by_cases hcolon : ∃ tag place colon rest,
        tokens = ⟨.identifier tag, place⟩ :: ⟨.mark .colon, colon⟩ :: rest
    · obtain ⟨tag, place, colon, rest, rfl⟩ := hcolon
      exact .inl ⟨tag, place, colon, rest, rfl, rfl⟩
    · refine .inr (.inr ⟨hnames, ?_⟩)
      match tokens with
      | [] => rfl
      | ⟨.identifier name, location⟩ :: rest =>
          refine splitLabel_of_noColon (fun colon more heq => ?_) hnames
          exact hcolon ⟨name, location, colon, more, by rw [heq]⟩
      | ⟨.newline, _⟩ :: _ | ⟨.endOfInput, _⟩ :: _ | ⟨.number _, _⟩ :: _ | ⟨.string _, _⟩ :: _
      | ⟨.temp _, _⟩ :: _ | ⟨.mark _, _⟩ :: _ => rfl

/-- What is read behind a label has a form. -/
theorem bodyForm_of_readLine {stop : Token} {rest : List Token}
    (hsplit : splitLabel ⟨tokens, some stop⟩ = (label, rest)) (hne : rest ≠ [])
    (h : readLine ⟨tokens, some stop⟩ = .ok statements) :
    ∃ name location more, rest = ⟨.identifier name, location⟩ :: more ∧
      BodyForm label name location more statements := by
  obtain ⟨⟨kind, location⟩, more, rfl⟩ := List.exists_cons_of_ne_nil hne
  simp only [readLine, hsplit] at h
  cases kind with
  | identifier name => exact ⟨name, location, more, rfl, bodyForm_of_readBody h⟩
  | _ => cases h

/-- What is read as a line is derived. -/
theorem derives_of_readLine {stop : Token}
    (h : readLine ⟨tokens, some stop⟩ = .ok statements) : Derives tokens statements := by
  -- the three ways in which a line may start
  obtain ⟨tag, place, colon, rest, rfl, hsplit⟩ |
    ⟨tag, place, name, location, rest, keyword, rfl, hname, hsplit⟩ | ⟨hplain, hsplit⟩ :=
      splitLabel_cases tokens stop
  · refine .plain not_namesConstant_colon ?_
    by_cases hempty : rest = []
    · subst hempty
      obtain rfl : [.label tag place] = statements := Except.ok.inj h
      exact .label
    · obtain ⟨name, location, more, rfl, hbody⟩ := bodyForm_of_readLine hsplit hempty h
      exact form_of_bodyForm_some hbody
  · obtain ⟨_, _, _, heq, hbody⟩ := bodyForm_of_readLine hsplit (List.cons_ne_nil _ _) h
    cases heq
    exact derives_of_bodyForm_constant hname hbody
  · refine .plain hplain ?_
    by_cases hempty : tokens = []
    · subst hempty
      obtain rfl : [] = statements := Except.ok.inj h
      exact .empty
    · obtain ⟨name, location, more, rfl, hbody⟩ := bodyForm_of_readLine hsplit hempty h
      exact form_of_bodyForm_none hbody

/-- A line is read exactly if the grammar derives it. -/
theorem readLine_eq_ok {stop : Token} :
    readLine ⟨tokens, some stop⟩ = .ok statements ↔ Derives tokens statements :=
  ⟨derives_of_readLine, readLine_of_derives⟩

/-! ## Refusals -/

def isWritable : Statement → Bool
  | .label _ _ => true
  | .constant _ _ value _ => value.isWritable
  | .item body _ => body.isWritable

/-- The diagnostics of the reader: errors of grammar, and operations with operands that they cannot
have. -/
def IsSyntactic (d : Diagnostic) : Prop :=
  d.cause.category = .grammar ∨ d.cause.category = .operation

/-- What is read has a property, and what is refused is refused with such a diagnostic, which quotes
no line, and which can be worded if the numbers among the tokens are short. -/
structure Reads {α : Type} (Short : Prop) (Post : α → Prop) (result : Except Diagnostic α) :
    Prop where
  post : ∀ a, result = .ok a → Post a
  syntactic : ∀ d, result = .error d → IsSyntactic d ∧ d.sourceLine = none
  writable : Short → ∀ d, result = .error d → d.cause.isWritable = true

/-- The numbers among some tokens can be written. -/
def AllWritable (tokens : List Token) : Prop := ∀ token ∈ tokens, token.kind.isWritable = true

theorem allWritable_nil : AllWritable [] := List.forall_mem_nil _

/-- Tokens can be written if the first one and the others can. -/
theorem allWritable_cons {token : Token} {tokens : List Token} :
    AllWritable (token :: tokens) ↔ token.kind.isWritable = true ∧ AllWritable tokens :=
  List.forall_mem_cons

theorem allWritable_append {before after : List Token} :
    AllWritable (before ++ after) ↔ AllWritable before ∧ AllWritable after :=
  List.forall_mem_append

namespace Reads

variable {α β : Type} {Short : Prop} {Post : α → Prop} {Post' : β → Prop}

/-- A result reads as it is asked to. -/
theorem ok {a : α} (ha : Post a) : Reads Short Post (.ok a : Except Diagnostic α) := by
  refine ⟨?_, ?_, ?_⟩
  · rintro _ ⟨⟩
    exact ha
  · intro d hd
    cases hd
  · intro _ d hd
    cases hd

/-- So does a refusal for a cause of grammar that can be worded. -/
theorem refuse {cause : Cause} (location : Location)
    (h : cause.category = .grammar ∨ cause.category = .operation)
    (hwritable : Short → cause.isWritable = true) :
    Reads Short Post (Statement.refuse cause location : Except Diagnostic α) := by
  refine ⟨?_, ?_, ?_⟩
  · intro a ha
    cases ha
  · intro d hd
    obtain rfl := Except.error.inj hd
    exact ⟨h, rfl⟩
  · intro hshort d hd
    obtain rfl := Except.error.inj hd
    exact hwritable hshort

/-- The second part of a reading knows what the first one has read. -/
theorem bind {x : Except Diagnostic α} {f : α → Except Diagnostic β} (hx : Reads Short Post x)
    (hf : ∀ a, Post a → Reads Short Post' (f a)) : Reads Short Post' (x >>= f) := by
  cases x with
  | error d =>
      refine ⟨?_, ?_, ?_⟩
      · intro a ha
        cases ha
      · intro d' hd'
        exact hx.syntactic d' (congrArg Except.error (Except.error.inj hd'))
      · intro hshort d' hd'
        exact hx.writable hshort d' (congrArg Except.error (Except.error.inj hd'))
  | ok a => exact hf a (hx.post a rfl)

/-- So does a list of readings. -/
theorem mapM {f : α → Except Diagnostic β} {as : List α} (hf : ∀ a ∈ as, Reads Short Post' (f a)) :
    Reads Short (fun bs => ∀ b ∈ bs, Post' b) (as.mapM f) := by
  induction as with
  | nil => exact ok (List.forall_mem_nil _)
  | cons a as ih =>
      rw [List.forall_mem_cons] at hf
      rw [List.mapM_cons]
      exact hf.1.bind fun b hb => (ih hf.2).bind fun bs hbs =>
        ok (List.forall_mem_cons.mpr ⟨hb, hbs⟩)

end Reads

section Refusals

variable {Short : Prop} {tokens : List Token} (htokens : Short → AllWritable tokens)

include htokens

/-- An expression is read, or refused with a cause that can be worded; and so on through the
grammar. -/
theorem reads_readExpr (location : Location) :
    Reads Short (fun e => Short → e.isWritable = true) (readExpr tokens location) := by
  rw [readExpr]
  cases hof : Expr.ofTokens tokens (some location) with
  | ok e => exact .ok fun hshort => (Expr.ofTokens_eq_ok.mp hof).isWritable (htokens hshort)
  | error refusal =>
      obtain ⟨reason, place⟩ := refusal
      refine ⟨?_, ?_, ?_⟩
      · intro a ha
        cases ha
      · rintro _ ⟨⟩
        exact ⟨.inl rfl, rfl⟩
      · rintro hshort _ ⟨⟩
        exact Expr.isWritable_of_ofTokens hof (htokens hshort)

/-- A memory operand. -/
theorem reads_readMemory (start : Location) :
    Reads Short (fun operand => Short → operand.isWritable = true) (readMemory start tokens) := by
  unfold readMemory
  split
  · exact .refuse _ (.inl rfl) fun _ => rfl
  · exact .ok fun _ => rfl
  · exact (reads_readExpr htokens start).bind fun _ he => .ok he

/-- An operand, with the tokens that it leaves. -/
theorem reads_readOperand (stop : Location) :
    Reads Short (fun read => Short → read.1.isWritable = true ∧ AllWritable read.2)
      (readOperand stop tokens) := by
  unfold readOperand
  split
  · exact .refuse _ (.inl rfl) fun _ => rfl
  · next token rest =>
    have hrest : Short → AllWritable rest := fun hshort => (allWritable_cons.mp (htokens hshort)).2
    split
    · exact .ok fun hshort => ⟨rfl, hrest hshort⟩
    -- the cut leaves the same tokens, in two parts
    · rw [← collect_fst_append_snd (some .rightBracket) 0 rest] at hrest
      simp only
      split
      · exact .refuse _ (.inl rfl) fun _ => rfl
      · next closing after hafter =>
        rw [hafter] at hrest
        have hparts := fun hshort => allWritable_append.mp (hrest hshort)
        split_ifs
        · refine (reads_readMemory (fun hshort => (hparts hshort).1) _).bind
            fun _ hoperand => .ok fun hshort => ⟨hoperand hshort, ?_⟩
          exact (allWritable_cons.mp (hparts hshort).2).2
        · exact .refuse _ (.inl rfl) fun _ => rfl
    · rw [← collect_fst_append_snd (some .comma) 0 (token :: rest)] at htokens
      split
      · exact .refuse _ (.inl rfl) fun _ => rfl
      · next taken after hcollect =>
        rw [hcollect] at htokens
        have hparts := fun hshort => allWritable_append.mp (htokens hshort)
        exact (reads_readExpr (fun hshort => (hparts hshort).1) _).bind
          fun _ he => .ok fun hshort => ⟨he hshort, (hparts hshort).2⟩

/-- Operands up to the end of a line. -/
theorem reads_readOperandsWithin (stop : Location) (rounds : Nat) :
    Reads Short
      (fun read => Short → (∀ operand ∈ read.1, operand.isWritable = true) ∧ AllWritable read.2)
      (readOperandsWithin stop rounds tokens) := by
  induction rounds generalizing tokens with
  | zero => exact .ok fun hshort => ⟨List.forall_mem_nil _, htokens hshort⟩
  | succ rounds ih =>
      refine (reads_readOperand htokens stop).bind fun found hfound => ?_
      obtain ⟨operand, rest⟩ := found
      simp only
      split
      · next comma after =>
        refine (ih fun hshort => (allWritable_cons.mp (hfound hshort).2).2).bind
          fun others hothers => .ok fun hshort => ⟨?_, (hothers hshort).2⟩
        exact List.forall_mem_cons.mpr ⟨(hfound hshort).1, (hothers hshort).1⟩
      · refine .ok fun hshort => ⟨?_, (hfound hshort).2⟩
        exact List.forall_mem_singleton.mpr (hfound hshort).1

omit htokens in
/-- The check of targets. -/
theorem reads_checkTargets (operands : List Operand) (roles : List Role) :
    Reads Short (fun _ => True) (checkTargets operands roles) := by
  fun_induction checkTargets operands roles with
  | case1 => exact .refuse _ (.inr rfl) fun _ => rfl
  | case2 _ _ _ _ _ ih => exact ih
  | case3 => exact .ok trivial

/-- An operation. -/
theorem reads_readOperation (opcode : Opcode) (location stop : Location) :
    Reads Short (fun read => Short → read.1.isWritable = true ∧ AllWritable read.2)
      (readOperation opcode location stop tokens) := by
  have hoperands : Reads Short
      (fun read => Short → (∀ operand ∈ read.1, operand.isWritable = true) ∧ AllWritable read.2)
      (readOperands stop tokens) := by
    rw [readOperands]
    split_ifs
    · exact .ok fun _ => ⟨List.forall_mem_nil _, allWritable_nil⟩
    · exact reads_readOperandsWithin htokens _ _
  refine hoperands.bind fun found hfound => ?_
  obtain ⟨operands, rest⟩ := found
  simp only
  split
  · exact .refuse _ (.inr rfl) fun _ => rfl
  · next op hop =>
    refine (reads_checkTargets _ _).bind fun _ _ => .ok fun hshort => ⟨?_, (hfound hshort).2⟩
    obtain ⟨rfl, rfl⟩ := ofOperands?_eq_some.mp hop
    exact List.all_eq_true.mpr (hfound hshort).1

omit htokens in
/-- Arguments between commas. -/
theorem reads_splitArguments (location : Location) (first : Bool) (depth : Int)
    {current rest : List Token} (hcurrent : Short → AllWritable current)
    (hrest : Short → AllWritable rest) :
    Reads Short (fun arguments => Short → ∀ argument ∈ arguments, AllWritable argument)
      (splitArguments location first depth current rest) := by
  induction rest generalizing first depth current with
  | nil =>
      have hreverse : Short → AllWritable current.reverse :=
        fun hshort token hmem => hcurrent hshort token (List.mem_reverse.mp hmem)
      rw [splitArguments]
      split_ifs
      · exact .ok fun hshort => List.forall_mem_singleton.mpr (hreverse hshort)
      · exact .ok fun _ => List.forall_mem_nil _
      · exact .refuse _ (.inl rfl) fun _ => rfl
  | cons token rest ih =>
      have hreverse : Short → AllWritable current.reverse :=
        fun hshort token hmem => hcurrent hshort token (List.mem_reverse.mp hmem)
      have hparts := fun hshort => allWritable_cons.mp (hrest hshort)
      rw [splitArguments]
      -- a comma outside of all brackets ends an argument
      by_cases hcut : token.kind = .mark .comma ∧ depth = 0
      · rw [if_pos hcut]
        split_ifs
        · exact .refuse _ (.inl rfl) fun _ => rfl
        · refine (ih _ _ (fun _ => allWritable_nil) fun hshort => (hparts hshort).2).bind
            fun arguments harguments => .ok fun hshort => ?_
          exact List.forall_mem_cons.mpr ⟨hreverse hshort, harguments hshort⟩
      · rw [if_neg hcut]
        refine ih _ _ (fun hshort => ?_) fun hshort => (hparts hshort).2
        exact allWritable_cons.mpr ⟨(hparts hshort).1, hcurrent hshort⟩

/-- A datum. -/
theorem reads_readDatum (location : Location) :
    Reads Short (fun datum => Short → datum.isWritable = true) (readDatum location tokens) := by
  unfold readDatum
  split
  · exact .ok fun _ => rfl
  · exact (reads_readExpr htokens _).bind fun _ he => .ok he

/-- A data directive. -/
theorem reads_readData (size : DataSize) (location : Location) :
    Reads Short (fun body => Short → body.isWritable = true) (readData size location tokens) := by
  refine (reads_splitArguments location true 0 (fun _ => allWritable_nil) htokens).bind
    fun arguments harguments => ?_
  refine (Reads.mapM fun argument hmem =>
    reads_readDatum (fun hshort => harguments hshort argument hmem) location).bind
    fun values hvalues => ?_
  split_ifs
  · exact .refuse _ (.inl rfl) fun _ => rfl
  · exact .refuse _ (.inl rfl) fun _ => rfl
  · exact .ok fun hshort => List.all_eq_true.mpr fun datum hmem => hvalues datum hmem hshort

/-- A reserve directive. -/
theorem reads_readReserve (size : DataSize) (location : Location) :
    Reads Short (fun body => Short → body.isWritable = true)
      (readReserve size location tokens) := by
  refine (reads_splitArguments location true 0 (fun _ => allWritable_nil) htokens).bind
    fun arguments harguments => ?_
  split
  · refine (reads_readExpr (fun hshort => harguments hshort _ List.mem_cons_self) _).bind
      fun _ he => .ok he
  · exact .refuse _ (.inl rfl) fun _ => rfl

/-- A definition. -/
theorem reads_readDefinition (keyword : ConstantKeyword) (name : String)
    (place location : Location) :
    Reads Short (fun read => Short → read.1.isWritable = true ∧ AllWritable read.2)
      (readDefinition keyword name place location tokens) := by
  rw [← collect_fst_append_snd none 0 tokens] at htokens
  rw [readDefinition]
  split
  · exact .refuse _ (.inl rfl) fun _ => rfl
  · next first more rest hcollect =>
    rw [hcollect] at htokens
    have hparts := fun hshort => allWritable_append.mp (htokens hshort)
    exact (reads_readExpr (fun hshort => (hparts hshort).1) _).bind
      fun _ he => .ok fun hshort => ⟨he hshort, (hparts hshort).2⟩

/-- A constant, with its name in front or behind. -/
theorem reads_readConstant (keyword : ConstantKeyword) (label : Option (String × Location))
    (location stop : Location) :
    Reads Short (fun read => Short → read.1.isWritable = true ∧ AllWritable read.2)
      (readConstant keyword label location stop tokens) := by
  unfold readConstant
  split
  · exact reads_readDefinition htokens _ _ _ _
  · split
    · split
      · refine reads_readDefinition (fun hshort => ?_) _ _ _ _
        exact (allWritable_cons.mp (allWritable_cons.mp (htokens hshort)).2).2
      · exact .refuse _ (.inl rfl) fun _ => rfl
      · exact .refuse _ (.inl rfl) fun _ => rfl
    · exact .refuse _ (.inl rfl) fun _ => rfl

theorem reads_checkLineEnd : Reads Short (fun _ => True) (checkLineEnd tokens) := by
  cases tokens with
  | nil => exact .ok trivial
  | cons token rest =>
      exact .refuse _ (.inl rfl) fun hshort => htokens hshort token List.mem_cons_self

/-- What stands behind a label. -/
theorem reads_readBody (label : Option (String × Location)) (name : String)
    (location stop : Location) :
    Reads Short (fun statements => Short → ∀ statement ∈ statements, statement.isWritable = true)
      (readBody label name location stop tokens) := by
  have hlabels : ∀ statement ∈ labels label, statement.isWritable = true := by
    cases label with
    | none => exact List.forall_mem_nil _
    | some pair => exact List.forall_mem_singleton.mpr rfl
  -- the label in front has no numbers
  have hitem : ∀ {body : Body}, (Short → body.isWritable = true) → Short →
      ∀ statement ∈ labels label ++ [.item body location], statement.isWritable = true :=
    fun hbody hshort => List.forall_mem_append.mpr
      ⟨hlabels, List.forall_mem_singleton.mpr (hbody hshort)⟩
  unfold readBody
  split
  · refine (reads_readConstant htokens _ _ _ _).bind fun found hfound => ?_
    refine (reads_checkLineEnd fun hshort => (hfound hshort).2).bind fun _ _ => .ok fun hshort => ?_
    exact List.forall_mem_singleton.mpr (hfound hshort).1
  · refine (reads_readOperation htokens _ _ _).bind fun found hfound => ?_
    exact (reads_checkLineEnd fun hshort => (hfound hshort).2).bind fun _ _ =>
      .ok (hitem fun hshort => (hfound hshort).1)
  · exact (reads_readData htokens _ _).bind fun _ hbody => .ok (hitem hbody)
  · exact (reads_readReserve htokens _ _).bind fun _ hbody => .ok (hitem hbody)
  · exact .refuse _ (.inl rfl) fun _ => rfl

end Refusals

/-- Splitting the label off leaves tokens of the line. -/
theorem allWritable_splitLabel {line : Line} (h : AllWritable line.tokens) :
    AllWritable (splitLabel line).2 := by
  unfold splitLabel
  split
  · next heq =>
    rw [heq] at h
    exact (allWritable_cons.mp (allWritable_cons.mp h).2).2
  · next heq =>
    split_ifs
    · rw [heq] at h
      exact (allWritable_cons.mp h).2
    · exact h
  · split_ifs
    · exact allWritable_nil
    · exact h
  · exact h

/-- A whole line. -/
theorem reads_readLine {Short : Prop} {line : Line}
    (hline : Short → AllWritable line.tokens) :
    Reads Short (fun statements => Short → ∀ statement ∈ statements, statement.isWritable = true)
      (readLine line) := by
  have hsplit := fun hshort => allWritable_splitLabel (hline hshort)
  unfold readLine
  split
  · next tag _ =>
    refine .ok fun _ => ?_
    cases tag with
    | none => exact List.forall_mem_nil _
    | some pair => exact List.forall_mem_singleton.mpr rfl
  · next tag first rest heq =>
    simp only [heq, allWritable_cons] at hsplit
    split
    · exact reads_readBody (fun hshort => (hsplit hshort).2) _ _ _ _
    · exact .refuse _ (.inl rfl) fun hshort => (hsplit hshort).1

/-- The tokens of the lines are among those of the text. -/
theorem allWritable_split {tokens : List Token} (h : AllWritable tokens) :
    ∀ line ∈ Line.split tokens, AllWritable line.tokens := by
  induction tokens with
  | nil => exact List.forall_mem_nil _
  | cons token rest ih =>
      obtain ⟨htoken, hrest⟩ := allWritable_cons.mp h
      rw [Line.split]
      split
      · exact List.forall_mem_singleton.mpr allWritable_nil
      · exact List.forall_mem_cons.mpr ⟨allWritable_nil, ih hrest⟩
      -- the token joins the first line of the rest, if there is one
      · split
        · exact List.forall_mem_singleton.mpr (allWritable_cons.mpr ⟨htoken, allWritable_nil⟩)
        · next first lines hlines =>
          rw [hlines, List.forall_mem_cons] at ih
          obtain ⟨hfirst, hlines⟩ := ih hrest
          exact List.forall_mem_cons.mpr ⟨allWritable_cons.mpr ⟨htoken, hfirst⟩, hlines⟩

/-- What a text says can be written if its numbers can, and so can the reason for which it is
refused. -/
theorem reads_ofTokens (tokens : List Token) :
    Reads (AllWritable tokens)
      (fun statements => AllWritable tokens → ∀ statement ∈ statements, statement.isWritable = true)
      (ofTokens tokens) := by
  refine (Reads.mapM fun line hmem => reads_readLine fun hshort =>
    allWritable_split hshort line hmem).bind fun groups hgroups => .ok fun hshort => ?_
  intro statement hstatement
  obtain ⟨group, hgroup, hmem⟩ := List.mem_flatten.mp hstatement
  exact hgroups group hgroup hshort statement hmem

/-! ## Texts -/

/-- Whether a token ends a line and not the text. -/
def isNewline (token : Token) : Bool := token.kind == .newline

/-- Between line ends are the lines, and each of them is closed if the text is. -/
theorem map_tokens_split {body : List Token} {eof : Token} (heof : eof.kind = .endOfInput)
    (hbody : ∀ token ∈ body, token.kind ≠ .endOfInput) :
    (Line.split (body ++ [eof])).map Line.tokens = body.splitOnP isNewline ∧
      ∀ line ∈ Line.split (body ++ [eof]), ∃ stop, line.stop = some stop := by
  obtain ⟨kind, place⟩ := eof
  obtain rfl : kind = _ := heof
  induction body with
  | nil =>
      refine ⟨rfl, ?_⟩
      intro line hline
      obtain rfl := List.mem_singleton.mp hline
      exact ⟨_, rfl⟩
  | cons token rest ih =>
      obtain ⟨htokens, hstops⟩ := ih fun other hother => hbody other (List.mem_cons_of_mem _ hother)
      rw [List.cons_append, Line.split, List.splitOnP_cons_eq_if_modifyHead, isNewline]
      split
      case h_1 hkind => exact absurd hkind (hbody token List.mem_cons_self)
      case h_2 hkind =>
        rw [if_pos (beq_iff_eq.mpr hkind), List.map_cons, htokens]
        refine ⟨rfl, ?_⟩
        rintro line (_ | ⟨_, hline⟩)
        · exact ⟨_, rfl⟩
        · exact hstops line hline
      case h_3 hnewline =>
        rw [if_neg (fun h => hnewline (beq_iff_eq.mp h)), ← htokens]
        -- There is always a line for the token to stand on.
        split
        case h_1 hnone =>
          rw [hnone] at htokens
          exact absurd htokens.symm (List.splitOnP_ne_nil _ _)
        case h_2 line lines hlines =>
          rw [hlines] at hstops ⊢
          refine ⟨rfl, ?_⟩
          rintro line' (_ | ⟨_, hline'⟩)
          · exact hstops line List.mem_cons_self
          · exact hstops line' (List.mem_cons_of_mem _ hline')

/-- Lines that are closed are read exactly if the grammar derives them. -/
theorem forall₂_readLine {lines : List Line} {groups : List (List Statement)}
    (hstops : ∀ line ∈ lines, ∃ stop, line.stop = some stop) :
    List.Forall₂ (fun line group => readLine line = .ok group) lines groups ↔
      List.Forall₂ Derives (lines.map Line.tokens) groups := by
  induction lines generalizing groups with
  | nil => simp
  | cons line lines ih =>
      obtain ⟨stop, hstop⟩ := hstops line List.mem_cons_self
      obtain ⟨tokens, rfl⟩ : ∃ tokens, line = ⟨tokens, some stop⟩ := ⟨line.tokens, by rw [← hstop]⟩
      simp only [List.map_cons, List.forall₂_cons_left_iff, readLine_eq_ok,
        ih fun other hother => hstops other (List.mem_cons_of_mem _ hother)]

/-- The tokens of `k EQU 3`, `a: mov [b+k], $t` and `b: db "hi", (k)`, one to a column. -/
def program : List Token :=
  [.identifier "k", .identifier "EQU", .number 3, .newline,
    .identifier "a", .mark .colon, .identifier "mov", .mark .leftBracket, .identifier "b",
    .mark .plus, .identifier "k", .mark .rightBracket, .mark .comma, .temp .t, .newline,
    .identifier "b", .mark .colon, .identifier "db", .string "hi", .mark .comma, .mark .leftParen,
    .identifier "k", .mark .rightParen].mapIdx fun index kind =>
      ⟨kind, ⟨"<input>", 1, index + 1⟩⟩

end Statement

end Subleq
