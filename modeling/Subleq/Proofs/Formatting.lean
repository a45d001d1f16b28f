import Subleq.Proofs.Digits
import Subleq.Proofs.ExprGrammar
import Subleq.Proofs.JsonRoundTrip
import Subleq.Proofs.Scanning

/-!
# Expressions as text

Listings and messages show expressions as `Expr.render` writes them.  Parentheses stand around a
binary operation that is an operand of another one, and nowhere else: not around one that a unary
operator is applied to.

`Expr.Writes` says which tokens an expression is written with.  Its text is scanned to such tokens
(`Writes.scans`), and they can always be read, since tokens that can be read stay so after a unary
operator and with a binary operator between them (`Writes.exists_derives`).  Where no unary operator
is applied to a binary operation, they are read as they were meant.

That they are not elsewhere is shown by counting the parentheses that are open at each token
(`Expr.depths`).  In everything that is read, a binary operation is deeper than a unary operator
that is applied to it; in everything that is written, it is not.

A number may have more digits in decimals than can be written, since in another base it can be read;
then there is no text.
-/

namespace Subleq.Expr

variable {level level' : Nat} {tokens : List Token} {e e' : Expr}

/-! ## Joining what can be read -/

/-- A unary operator before tokens that can be read applies to the first operand among them. -/
theorem exists_derives_unary {mark : Mark} {op : UnaryOp} (hop : (mark, op) ∈ prefixOps)
    (location : Location) (h : Derives level tokens e) :
    ∃ e', Derives (min level 6) (⟨.mark mark, location⟩ :: tokens) e' := by
  -- by induction on the derivation: the operator sinks into the leftmost operand
  induction h with
  | number => exact ⟨_, .unary hop (.tighter .number)⟩
  | identifier => exact ⟨_, .unary hop (.tighter .identifier)⟩
  | here => exact ⟨_, .unary hop (.tighter .here)⟩
  | paren hinside _ => exact ⟨_, .unary hop (.tighter (.paren hinside))⟩
  | unary hop' hoperand _ => exact ⟨_, .unary hop (.unary hop' hoperand)⟩
  | binary hop' _ hright ihleft _ =>
      obtain ⟨e', hleft⟩ := ihleft
      have hlevel := level_lt_of_mem_infixOps hop'
      -- a binary operator binds less tightly, so only its left operand gets the new operator
      rw [min_eq_left hlevel.le] at hleft ⊢
      exact ⟨_, .binary hop' hleft hright⟩
  | tighter _ ih =>
      obtain ⟨e', h⟩ := ih
      exact ⟨e', h.loosen (by omega)⟩

/-- A binary operator after tokens that can be read takes as its left operand the last of them that
binds tightly enough. -/
theorem exists_derives_binary_left {left right : List Token} {mark : Mark} {op : BinaryOp}
    (hop : (mark, op) ∈ infixOps level') (location : Location)
    (hleft : Derives level left e) (hright : Derives (level' + 1) right e') :
    ∃ whole, Derives (min level level') (left ++ ⟨.mark mark, location⟩ :: right) whole := by
  have hlevel := level_lt_of_mem_infixOps hop
  have hdirect : ∀ {level left e}, level' ≤ level → Derives level left e →
      ∃ whole, Derives (min level level') (left ++ ⟨.mark mark, location⟩ :: right) whole := by
    intro level left e hle hleft
    rw [min_eq_right hle]
    exact ⟨_, .binary hop (hleft.loosen hle) hright⟩
  induction hleft with
  | number => exact hdirect (by omega) .number
  | identifier => exact hdirect (by omega) .identifier
  | here => exact hdirect (by omega) .here
  | paren hinside _ => exact hdirect (by omega) (.paren hinside)
  | unary hop' hoperand _ => exact hdirect (by omega) (.unary hop' hoperand)
  | @binary level _ _ _ first last _ _ hop' hfirst hlast _ ih =>
      by_cases hle : level' ≤ level
      · exact hdirect hle (.binary hop' hfirst hlast)
      · -- the new operator binds tighter, and takes only the right operand of this one
        obtain ⟨whole, hwhole⟩ := ih
        rw [min_eq_left (by omega)] at hwhole ⊢
        rw [List.append_assoc, List.cons_append]
        exact ⟨_, .binary hop' hfirst hwhole⟩
  | @tighter level _ _ hleft ih =>
      obtain ⟨whole, hwhole⟩ := ih
      exact ⟨whole, hwhole.loosen (by omega)⟩

/-- Tokens that can be read, joined by a binary operator, can be read. -/
theorem exists_derives_binary {left right : List Token} {mark : Mark} {op : BinaryOp}
    (hop : (mark, op) ∈ infixOps level') (location : Location)
    (hleft : Derives 0 left e) (hright : Derives level right e') :
    ∃ whole, Derives 0 (left ++ ⟨.mark mark, location⟩ :: right) whole := by
  have hdirect : ∀ {level right e'}, level' < level → Derives level right e' →
      ∃ whole, Derives 0 (left ++ ⟨.mark mark, location⟩ :: right) whole := by
    intro level right e' hlt hright
    obtain ⟨whole, hwhole⟩ := exists_derives_binary_left hop location hleft (hright.loosen hlt)
    exact ⟨whole, hwhole.loosen (Nat.zero_le _)⟩
  have hlevel := level_lt_of_mem_infixOps hop
  induction hright with
  | number => exact hdirect (by omega) .number
  | identifier => exact hdirect (by omega) .identifier
  | here => exact hdirect (by omega) .here
  | paren hinside _ => exact hdirect (by omega) (.paren hinside)
  | unary hop' hoperand _ => exact hdirect (by omega) (.unary hop' hoperand)
  | @binary level _ _ location' first last _ _ hop' hfirst hlast ih _ =>
      -- the operators inside of the right operand group to the left of what comes after them
      obtain ⟨whole, hwhole⟩ := ih
      obtain ⟨whole, hwhole⟩ := exists_derives_binary_left hop' location' hwhole hlast
      rw [List.append_assoc, List.cons_append] at hwhole
      exact ⟨whole, hwhole.loosen (Nat.zero_le _)⟩
  | tighter _ ih => exact ih

/-! ## What is written -/

/-- The tokens of an operand, in parentheses if they are needed. -/
def enclosed (needed : Bool) (opening closing : Location) (tokens : List Token) : List Token :=
  if needed then ⟨.mark .leftParen, opening⟩ :: tokens ++ [⟨.mark .rightParen, closing⟩] else tokens

/-- The tokens are those that an expression is written with, at any places. -/
inductive Writes : Expr → List Token → Prop
  | number {value : Nat} {location : Option Location} {place : Location} :
      Writes (.num value location) [⟨.number value, place⟩]
  | identifier {name : String} {location : Option Location} {place : Location}
      {lexeme rest : List Char} :
      Lexeme.Spells lexeme (.identifier name) rest →
      Writes (.sym name location) [⟨.identifier name, place⟩]
  | here {location : Option Location} {place : Location} :
      Writes (.here location) [⟨.mark .dollar, place⟩]
  | unary {mark : Mark} {op : UnaryOp} {operand : Expr} {location : Option Location}
      {place : Location} {tokens : List Token} :
      (mark, op) ∈ prefixOps → Writes operand tokens →
      Writes (.un op operand location) (⟨.mark mark, place⟩ :: tokens)
  | binary {level : Nat} {mark : Mark} {op : BinaryOp} {left right : Expr}
      {place opening closing opening' closing' : Location} {tokens tokens' : List Token} :
      (mark, op) ∈ infixOps level → Writes left tokens → Writes right tokens' →
      Writes (.bin op left right)
        (enclosed left.isBinary opening closing tokens ++
          ⟨.mark mark, place⟩ :: enclosed right.isBinary opening' closing' tokens')

/-- Every tree that is read from words of the language can be written. -/
theorem Derives.exists_writes (h : Derives level tokens e)
    (hwords : ∀ token ∈ tokens,
      token.kind = .endOfInput ∨ ∃ lexeme rest, Lexeme.Spells lexeme token.kind rest) :
    ∃ written, Writes e written := by
  induction h with
  | @number _ location => exact ⟨[⟨_, location⟩], .number⟩
  -- a name can be written since the scanner has read it
  | @identifier name location =>
      obtain ⟨lexeme, rest, hspells⟩ :=
        (hwords _ List.mem_cons_self).resolve_left (fun hend => by cases hend)
      exact ⟨[⟨_, location⟩], .identifier hspells⟩
  | @here location => exact ⟨[⟨_, location⟩], .here⟩
  | paren _ ih => exact ih fun token hmem => hwords token (by simp [hmem])
  | @unary _ _ location _ _ hop _ ih =>
      obtain ⟨written, hwritten⟩ := ih fun token hmem => hwords token (List.mem_cons_of_mem _ hmem)
      exact ⟨⟨_, location⟩ :: written, .unary hop hwritten⟩
  | @binary _ mark _ location _ _ e e' hop _ _ ihleft ihright =>
      obtain ⟨written, hwritten⟩ := ihleft fun token hmem => hwords token (by simp [hmem])
      obtain ⟨written', hwritten'⟩ := ihright fun token hmem => hwords token (by simp [hmem])
      exact ⟨enclosed e.isBinary location location written ++
        ⟨.mark mark, location⟩ :: enclosed e'.isBinary location location written',
        .binary hop hwritten hwritten'⟩
  | tighter _ ih => exact ih hwords

/-! ## Reading what is written -/

/-- An expression without its places. -/
def bare : Expr → Expr
  | num value _ => num value none
  | sym name _ => sym name none
  | here _ => here none
  | un op operand _ => un op operand.bare none
  | bin op left right => bin op left.bare right.bare

/-- Places do not make an operation binary. -/
@[simp]
theorem isBinary_bare (e : Expr) : e.bare.isBinary = e.isBinary := by
  cases e <;> rfl

/-- No unary operator is applied to a binary operation. -/
def isTight : Expr → Bool
  | num _ _ | sym _ _ | here _ => true
  | un _ operand _ => !operand.isBinary && operand.isTight
  | bin _ left right => left.isTight && right.isTight

/-- Tokens in parentheses may stand anywhere. -/
theorem derives_enclosed {needed : Bool} {opening closing : Location}
    (h : Derives (if needed then 0 else level) tokens e) (hlevel : level ≤ 7) :
    Derives level (enclosed needed opening closing tokens) e := by
  cases needed with
  | false => exact h
  | true => exact (Derives.paren h).loosen hlevel

namespace Writes

/-- What is written can be read. -/
theorem exists_derives (h : Writes e tokens) : ∃ e', Derives 0 tokens e' := by
  induction h with
  | number => exact ⟨_, .loosen .number (Nat.zero_le _)⟩
  | identifier _ => exact ⟨_, .loosen .identifier (Nat.zero_le _)⟩
  | here => exact ⟨_, .loosen .here (Nat.zero_le _)⟩
  | @unary _ _ _ _ place _ hop _ ih =>
      obtain ⟨e', he'⟩ := ih
      exact exists_derives_unary hop place he'
  | @binary _ _ _ _ _ place _ _ _ _ _ _ hop _ _ ihleft ihright =>
      obtain ⟨left, hleft⟩ := ihleft
      obtain ⟨right, hright⟩ := ihright
      exact exists_derives_binary hop place
        (derives_enclosed (by rwa [ite_self]) (Nat.zero_le _))
        (derives_enclosed (by rwa [ite_self]) (Nat.zero_le _))

/-- Where no unary operator is applied to a binary operation, what is written is read as it was
meant. -/
theorem exists_derives_of_isTight (h : Writes e tokens) (htight : e.isTight = true) :
    ∃ e', Derives (if e.isBinary then 0 else 6) tokens e' ∧ e'.bare = e.bare := by
  -- by induction on the writing; binary operands are in parentheses, unary ones are not
  induction h with
  | @number value _ place => exact ⟨.num value (some place), .tighter .number, rfl⟩
  | @identifier name _ place => exact ⟨.sym name (some place), .tighter .identifier, rfl⟩
  | @here _ place => exact ⟨.here (some place), .tighter .here, rfl⟩
  | @unary _ op operand _ place _ hop _ ih =>
      rw [isTight, Bool.and_eq_true, Bool.not_eq_true'] at htight
      obtain ⟨e', hderives, hbare⟩ := ih htight.2
      -- the operand is no binary operation, so it is read back as tightly as it has to be
      rw [htight.1] at hderives
      refine ⟨.un op e' (some place), .unary hop hderives, ?_⟩
      rw [bare, bare, hbare]
  | @binary level _ op _ _ place _ _ _ _ _ _ hop _ _ ihleft ihright =>
      rw [isTight, Bool.and_eq_true] at htight
      obtain ⟨left', hleft, hbare⟩ := ihleft htight.1
      obtain ⟨right', hright, hbare'⟩ := ihright htight.2
      have hlevel := level_lt_of_mem_infixOps hop
      refine ⟨.bin op left' right', Derives.loosen ?_ (Nat.zero_le level), ?_⟩
      · exact .binary hop ((derives_enclosed hleft (by omega)).loosen hlevel.le)
          ((derives_enclosed hright (by omega)).loosen hlevel)
      · rw [bare, bare, hbare, hbare']

end Writes

/-! ## Depths

How many parentheses are open at each token tells how the tokens are read: wherever a unary operator
is applied to a binary operation, the operation stands in parentheses of its own. -/

/-- The numbers of parentheses that are open at the tokens, those of the parentheses themselves left
out. -/
def depths : (depth : Nat) → List Token → List Nat
  | _, [] => []
  | depth, token :: rest =>
      if token.kind = .mark .leftParen then depths (depth + 1) rest
      else if token.kind = .mark .rightParen then depths (depth - 1) rest
      else depth :: depths depth rest

/-- An operator is as deep as what is around it. -/
theorem depths_operator {mark : Mark} (h : mark ≠ .leftParen) (h' : mark ≠ .rightParen)
    (depth : Nat) (location : Location) (rest : List Token) :
    depths depth (⟨.mark mark, location⟩ :: rest) = depth :: depths depth rest := by
  rw [depths, if_neg (fun heq => h (Token.Kind.mark.inj heq)),
    if_neg (fun heq => h' (Token.Kind.mark.inj heq))]

/-- No unary operator is a parenthesis. -/
theorem ne_paren_of_mem_prefixOps {mark : Mark} {op : UnaryOp} (h : (mark, op) ∈ prefixOps) :
    mark ≠ .leftParen ∧ mark ≠ .rightParen := by
  have htable : ∀ pair ∈ prefixOps, pair.1 ≠ .leftParen ∧ pair.1 ≠ .rightParen := by decide
  exact htable (mark, op) h

theorem ne_paren_of_mem_infixOps {level : Nat} {mark : Mark} {op : BinaryOp}
    (h : (mark, op) ∈ infixOps level) : mark ≠ .leftParen ∧ mark ≠ .rightParen := by
  obtain ⟨hop, -⟩ := mem_infixOps.mp h
  constructor <;> rintro rfl <;> cases hop

/-- What stands in parentheses is deeper by one. -/
theorem depths_enclosed {needed : Bool} {opening closing : Location}
    {written : (depth : Nat) → List Nat}
    (h : ∀ depth rest, depths depth (tokens ++ rest) = written depth ++ depths depth rest)
    (depth : Nat) (rest : List Token) :
    depths depth (enclosed needed opening closing tokens ++ rest) =
      written (depth + needed.toNat) ++ depths depth rest := by
  cases needed with
  | false => exact h depth rest
  | true =>
      show depths (depth + 1) (tokens ++ [_] ++ rest) = _
      rw [List.append_assoc, h]
      rfl

def writtenDepths : Expr → (depth : Nat) → List Nat
  | num _ _, depth | sym _ _, depth | here _, depth => [depth]
  | un _ operand _, depth => depth :: operand.writtenDepths depth
  | bin _ left right, depth =>
      left.writtenDepths (depth + left.isBinary.toNat) ++
        depth :: right.writtenDepths (depth + right.isBinary.toNat)

/-- The depths at the tokens of an expression are such that it can be read from them: no operand is
less deep than its operator, and a binary operation is deeper than a unary operator before it. -/
def Placed : Expr → (least : Nat) → List Nat → Prop
  | num _ _, least, depths | sym _ _, least, depths | here _, least, depths =>
      ∃ depth, least ≤ depth ∧ depths = [depth]
  | un _ operand _, least, depths =>
      ∃ depth rest, least ≤ depth ∧ depths = depth :: rest ∧
        operand.Placed (depth + operand.isBinary.toNat) rest
  | bin _ left right, least, depths =>
      ∃ before depth after, least ≤ depth ∧ depths = before ++ depth :: after ∧
        left.Placed depth before ∧ right.Placed depth after

/-- The number of operators, numbers and names in an expression. -/
def size : Expr → Nat
  | num _ _ | sym _ _ | here _ => 1
  | un _ operand _ => operand.size + 1
  | bin _ left right => left.size + (right.size + 1)

/-- There is one depth for each operator, number and name. -/
theorem length_writtenDepths (e : Expr) (depth : Nat) :
    (e.writtenDepths depth).length = e.size := by
  induction e generalizing depth with
  | un op operand location ih => rw [writtenDepths, List.length_cons, ih, size]
  | bin op left right ihleft ihright =>
      rw [writtenDepths, List.length_append, List.length_cons, ihleft, ihright, size]
  | _ => rfl

/-- So there is where an expression can be read. -/
theorem Placed.length_eq {least : Nat} {depths : List Nat} (h : e.Placed least depths) :
    depths.length = e.size := by
  induction e generalizing least depths with
  | un op operand location ih =>
      obtain ⟨depth, rest, -, rfl, hoperand⟩ := h
      rw [List.length_cons, ih hoperand, size]
  | bin op left right ihleft ihright =>
      obtain ⟨before, depth, after, -, rfl, hleft, hright⟩ := h
      rw [List.length_append, List.length_cons, ihleft hleft, ihright hright, size]
  | _ =>
      obtain ⟨depth, -, rfl⟩ := h
      rfl

/-- What can be read at a depth can be read at a lesser one. -/
theorem Placed.mono {least least' : Nat} {depths : List Nat} (h : e.Placed least depths)
    (hle : least' ≤ least) : e.Placed least' depths := by
  cases e with
  | un op operand location =>
      obtain ⟨depth, rest, hleast, hrest⟩ := h
      exact ⟨depth, rest, hle.trans hleast, hrest⟩
  | bin op left right =>
      obtain ⟨before, depth, after, hleast, hrest⟩ := h
      exact ⟨before, depth, after, hle.trans hleast, hrest⟩
  | _ =>
      obtain ⟨depth, hleast, hrest⟩ := h
      exact ⟨depth, hle.trans hleast, hrest⟩

/-- Places do not matter for depths. -/
theorem placed_bare (e : Expr) {least : Nat} {depths : List Nat} :
    e.bare.Placed least depths ↔ e.Placed least depths := by
  induction e generalizing least depths with
  | un op operand location ih => simp only [bare, Placed, isBinary_bare, ih]
  | bin op left right ihleft ihright => simp only [bare, Placed, ihleft, ihright]
  | _ => rfl

/-- The tokens of an expression have depths from which it can be read. -/
theorem Derives.placed (h : Derives level tokens e) (depth : Nat) :
    ∃ placed, (∀ rest, depths depth (tokens ++ rest) = placed ++ depths depth rest) ∧
      e.Placed depth placed ∧ (6 ≤ level → e.Placed (depth + e.isBinary.toNat) placed) := by
  -- the induction keeps track of how deep each token lies in parentheses
  induction h generalizing depth with
  | number => exact ⟨[depth], fun _ => rfl, ⟨depth, le_rfl, rfl⟩, fun _ => ⟨depth, le_rfl, rfl⟩⟩
  | identifier =>
      exact ⟨[depth], fun _ => rfl, ⟨depth, le_rfl, rfl⟩, fun _ => ⟨depth, le_rfl, rfl⟩⟩
  | here => exact ⟨[depth], fun _ => rfl, ⟨depth, le_rfl, rfl⟩, fun _ => ⟨depth, le_rfl, rfl⟩⟩
  -- the parentheses put everything inside one level deeper
  | @paren opening closing tokens e _ ih =>
      obtain ⟨placed, hdepths, hplaced, -⟩ := ih (depth + 1)
      refine ⟨placed, fun rest => ?_, hplaced.mono (Nat.le_succ _), fun _ => hplaced.mono ?_⟩
      · show depths (depth + 1) (tokens ++ [_] ++ rest) = _
        rw [List.append_assoc, hdepths]
        rfl
      · have := e.isBinary.toNat_le
        omega
  | @unary mark op location tokens e hop _ ih =>
      obtain ⟨placed, hdepths, -, hplaced⟩ := ih depth
      have hwhole : (un op e (some location)).Placed depth (depth :: placed) :=
        ⟨depth, placed, le_rfl, rfl, hplaced le_rfl⟩
      refine ⟨depth :: placed, fun rest => ?_, hwhole, fun _ => hwhole⟩
      obtain ⟨hopening, hclosing⟩ := ne_paren_of_mem_prefixOps hop
      rw [List.cons_append, depths_operator hopening hclosing, hdepths, List.cons_append]
  | @binary level mark op location left right e e' hop _ _ ihleft ihright =>
      obtain ⟨placed, hdepths, hplaced, -⟩ := ihleft depth
      obtain ⟨placed', hdepths', hplaced', -⟩ := ihright depth
      have hlevel := level_lt_of_mem_infixOps hop
      refine ⟨placed ++ depth :: placed', fun rest => ?_,
        ⟨placed, depth, placed', le_rfl, rfl, hplaced, hplaced'⟩,
        -- a binary operation is never derived at the level of a factor
        fun hle => absurd hlevel (by omega)⟩
      obtain ⟨hopening, hclosing⟩ := ne_paren_of_mem_infixOps hop
      rw [List.append_assoc, hdepths, List.cons_append, depths_operator hopening hclosing, hdepths',
        List.append_assoc, List.cons_append]
  | tighter _ ih =>
      obtain ⟨placed, hdepths, hplaced, htight⟩ := ih depth
      exact ⟨placed, hdepths, hplaced, fun hle => htight (Nat.le_succ_of_le hle)⟩

/-- The tokens of an expression have the depths that it is written with. -/
theorem Writes.depths_eq (h : Writes e tokens) (depth : Nat) (rest : List Token) :
    depths depth (tokens ++ rest) = e.writtenDepths depth ++ depths depth rest := by
  induction h generalizing depth rest with
  | number => rfl
  | identifier _ => rfl
  | here => rfl
  | unary hop _ ih =>
      obtain ⟨hopening, hclosing⟩ := ne_paren_of_mem_prefixOps hop
      rw [List.cons_append, depths_operator hopening hclosing, ih, writtenDepths, List.cons_append]
  | binary hop _ _ ihleft ihright =>
      obtain ⟨hopening, hclosing⟩ := ne_paren_of_mem_infixOps hop
      rw [List.append_assoc, depths_enclosed ihleft, List.cons_append,
        depths_operator hopening hclosing, depths_enclosed ihright, writtenDepths,
        List.append_assoc, List.cons_append]

/-- A binary operation that can be read from the depths that it is written with is as deep as it is
written, and so are its operands. -/
theorem placed_writtenDepths_bin {op : BinaryOp} {left right : Expr} {least depth : Nat}
    (h : (bin op left right).Placed least ((bin op left right).writtenDepths depth)) :
    least ≤ depth ∧
      left.Placed depth (left.writtenDepths (depth + left.isBinary.toNat)) ∧
      right.Placed depth (right.writtenDepths (depth + right.isBinary.toNat)) := by
  obtain ⟨before, depth', after, hleast, heq, hleft, hright⟩ := h
  have hlength : (left.writtenDepths (depth + left.isBinary.toNat)).length = before.length := by
    rw [length_writtenDepths, hleft.length_eq]
  obtain ⟨rfl, htail⟩ := List.append_inj heq hlength
  obtain ⟨rfl, rfl⟩ := List.cons.inj htail
  exact ⟨hleast, hleft, hright⟩

/-- What can be read from the depths that it is written with has no unary operator before a binary
operation. -/
theorem isTight_of_placed {least depth : Nat} (h : e.Placed least (e.writtenDepths depth)) :
    e.isTight = true := by
  induction e generalizing least depth with
  | un op operand location ih =>
      obtain ⟨depth', rest, -, heq, hoperand⟩ := h
      obtain ⟨rfl, rfl⟩ := List.cons.inj heq
      rw [isTight, Bool.and_eq_true, Bool.not_eq_true']
      refine ⟨?_, ih hoperand⟩
      cases operand with
      | bin op left right =>
          -- the operation would have to be deeper than the operator before it
          have hdeeper := (placed_writtenDepths_bin hoperand).1
          exact absurd hdeeper (Nat.not_succ_le_self depth)
      | _ => rfl
  | bin op left right ihleft ihright =>
      obtain ⟨-, hleft, hright⟩ := placed_writtenDepths_bin h
      rw [isTight, ihleft hleft, ihright hright]
      rfl
  | _ => rfl

/-- What is written is read as it was meant exactly if no unary operator is applied to a binary
operation. -/
theorem Writes.bare_eq_iff (h : Writes e tokens) (hread : Derives 0 tokens e') :
    e'.bare = e.bare ↔ e.isTight = true := by
  -- reading back the depths of the tokens tells whether parentheses are missing
  constructor
  · intro hbare
    obtain ⟨placed, hdepths, hplaced, -⟩ := hread.placed 0
    have hwritten := h.depths_eq 0 []
    rw [hdepths, List.append_cancel_right_eq] at hwritten
    rw [← placed_bare, hbare, placed_bare, hwritten] at hplaced
    exact isTight_of_placed hplaced
  · intro htight
    obtain ⟨e'', hderives, hbare⟩ := h.exists_derives_of_isTight htight
    -- a text has one reading, so it is the one that was found
    have hwhole : ofTokens tokens none = .ok e'' :=
      ofTokens_eq_ok.mpr (hderives.loosen (Nat.zero_le _))
    have hread : ofTokens tokens none = .ok e' := ofTokens_eq_ok.mpr hread
    obtain rfl := Except.ok.inj (hread.symm.trans hwhole)
    exact hbare

/-! ## Scanning what is written -/

section Scanning

open Text (Stops)

variable {file : String}

/-- Wherever a text stands before something that does not go on a name, it is scanned to tokens of a
kind. -/
def Scans (file : String) (text : String) (Of : List Token → Prop) : Prop :=
  ∀ before rest others, Stops Char.continuesName rest →
    Token.Cut file (before ++ text.toList) rest others →
    ∃ tokens, Of tokens ∧ Token.Cut file before (text.toList ++ rest) (tokens ++ others)

theorem scans_word {text : String} {kind : Token.Kind}
    (h : ∀ rest, Stops Char.continuesName rest → Lexeme.Spells text.toList kind rest) :
    Scans file text fun tokens => ∃ place, tokens = [⟨kind, place⟩] := by
  intro before rest others hrest hcut
  exact ⟨_, ⟨_, rfl⟩, hcut.word (h rest hrest)⟩

/-- A mark may stand before anything. -/
theorem scans_mark {mark : Mark} {text : String} {Of : List Token → Prop} (hmark : mark ≠ .dollar)
    (h : Scans file text Of) :
    Scans file (mark.text ++ text) fun tokens =>
      ∃ place others, Of others ∧ tokens = ⟨.mark mark, place⟩ :: others := by
  intro before rest others hrest hcut
  rw [String.toList_append, ← List.append_assoc] at hcut
  obtain ⟨tokens, hof, hcut⟩ := h _ rest others hrest hcut
  rw [String.toList_append, List.append_assoc]
  exact ⟨_, ⟨_, tokens, hof, rfl⟩, hcut.word (.mark hmark)⟩

/-- Texts that are scanned one by one are scanned together, if the first ends where the second
starts. -/
theorem scans_append {text text' : String} {Of Of' : List Token → Prop} (h : Scans file text Of)
    (h' : Scans file text' Of')
    (hstops : ∀ rest, Stops Char.continuesName rest →
      Stops Char.continuesName (text'.toList ++ rest)) :
    Scans file (text ++ text') fun tokens =>
      ∃ first last, Of first ∧ Of' last ∧ tokens = first ++ last := by
  intro before rest others hrest hcut
  rw [String.toList_append, ← List.append_assoc] at hcut
  obtain ⟨last, hlast, hcut⟩ := h' _ rest others hrest hcut
  obtain ⟨first, hfirst, hcut⟩ := h _ _ _ (hstops rest hrest) hcut
  refine ⟨first ++ last, ⟨first, last, hfirst, hlast, rfl⟩, ?_⟩
  rwa [String.toList_append, List.append_assoc, List.append_assoc]

theorem Scans.imp {text : String} {Of Of' : List Token → Prop} (h : Scans file text Of)
    (himp : ∀ tokens, Of tokens → Of' tokens) : Scans file text Of' := by
  intro before rest others hrest hcut
  obtain ⟨tokens, hof, hcut⟩ := h before rest others hrest hcut
  exact ⟨tokens, himp tokens hof, hcut⟩

/-- Parentheses are scanned around what they enclose. -/
theorem scans_enclosed {text : String} {Of : List Token → Prop} (needed : Bool)
    (h : Scans file text Of) :
    Scans file (parenthesise needed text) fun tokens =>
      ∃ opening closing inside, Of inside ∧ tokens = enclosed needed opening closing inside := by
  cases needed with
  | false => exact h.imp fun tokens hof => ⟨.after file [], .after file [], tokens, hof, rfl⟩
  | true =>
      have hclosing : Scans file (Mark.text .rightParen) fun tokens =>
          ∃ place, tokens = [⟨.mark .rightParen, place⟩] :=
        scans_word fun rest _ => .mark (by decide)
      have hinside := scans_append h hclosing fun rest _ => Text.stops_cons.mpr rfl
      have hmark : Mark.leftParen ≠ .dollar := by decide
      have hwhole := scans_mark hmark hinside
      rw [← String.append_assoc] at hwhole
      refine hwhole.imp ?_
      rintro _ ⟨opening, _, ⟨inside, _, hof, ⟨closing, rfl⟩, rfl⟩, rfl⟩
      exact ⟨opening, closing, inside, hof, rfl⟩

/-- A number that can be written is a word. -/
theorem spells_toString {value : Nat} (hshort : Digits.isWritable value = true) {rest : List Char}
    (hrest : Stops Char.continuesName rest) :
    Lexeme.Spells (toString (value : Int)).toList (.number value) rest := by
  -- a natural number has no sign
  have hdigits : (toString (value : Int)).toList = Nat.toDigits 10 value := by
    rw [Json.toList_toString, if_neg (by omega)]
    rfl
  have hne : Nat.toDigits 10 value ≠ [] := Nat.toDigits_ne_nil
  obtain ⟨first, more, hsplit⟩ := List.exists_cons_of_ne_nil hne
  have hvalue : Text.positional 10 (first :: more) = value := by
    rw [← hsplit, ← Text.digitsValue_eq_positional]
    exact Text.digitsValue_toDigits (by decide) (by decide) value
  have hall : ∀ c ∈ first :: more, c.isDigit = true := fun c hc =>
    Nat.isDigit_of_mem_toDigits (by decide) (by decide) (hsplit ▸ hc)
  have hlength : (first :: more).length ≤ Digits.limit := by
    rw [← hsplit]
    exact of_decide_eq_true hshort
  have hspells := Lexeme.Spells.decimal hall hlength hrest
  rwa [hvalue, ← hsplit, ← hdigits] at hspells

/-- A name that has been read is a word wherever it stands. -/
theorem spells_name {name : String} {lexeme before : List Char}
    (h : Lexeme.Spells lexeme (.identifier name) before) {rest : List Char}
    (hrest : Stops Char.continuesName rest) :
    Lexeme.Spells name.toList (.identifier name) rest := by
  cases h with
  | identifier hfirst hmore _ =>
      rw [String.toList_ofList]
      exact .identifier hfirst hmore hrest

/-- So is the mark of a position. -/
theorem spells_dollar {rest : List Char} (hrest : Stops Char.continuesName rest) :
    Lexeme.Spells "$".toList (.mark .dollar) rest := by
  refine .dollar fun field after heq _ => ?_
  -- the letter of a temp field would go on a name
  have hletter : ∃ letter, rest = letter :: after ∧ Char.continuesName letter = true := by
    cases field <;> exact ⟨_, (List.cons.inj heq).2, by decide⟩
  obtain ⟨letter, rfl, hname⟩ := hletter
  exact absurd (Text.stops_cons.mp hrest) (by rw [hname]; decide)

/-- Unary operators are written as their marks. -/
theorem text_of_mem_prefixOps {mark : Mark} {op : UnaryOp} (h : (mark, op) ∈ prefixOps) :
    op.text = mark.text ∧ mark ≠ .dollar := by
  have htable : ∀ pair ∈ prefixOps, pair.2.text = pair.1.text ∧ pair.1 ≠ .dollar := by decide
  exact htable (mark, op) h

/-- Binary operators are written as their marks, which do not go on a name. -/
theorem text_of_mem_infixOps {level : Nat} {mark : Mark} {op : BinaryOp}
    (h : (mark, op) ∈ infixOps level) :
    op.text = mark.text ∧ mark ≠ .dollar ∧
      ∃ c more, mark.text.toList = c :: more ∧ Char.continuesName c = false := by
  obtain ⟨hop, -⟩ := mem_infixOps.mp h
  cases mark <;> cases hop <;> exact ⟨rfl, by decide, _, _, rfl, by decide⟩

/-- An expression as it is written is scanned to the tokens that it is written with. -/
theorem Writes.scans (h : Writes e tokens) (hshort : e.isWritable = true) :
    Scans file e.render (Writes e) := by
  -- by induction on the writing; the text is scanned piece by piece
  induction h with
  | @number value =>
      refine (scans_word fun rest hrest => spells_toString hshort hrest).imp ?_
      rintro _ ⟨place, rfl⟩
      exact .number
  | @identifier name location place lexeme rest hspells =>
      refine (scans_word fun rest hrest => spells_name hspells hrest).imp ?_
      rintro _ ⟨place, rfl⟩
      exact .identifier hspells
  | here =>
      refine (scans_word fun rest hrest => spells_dollar hrest).imp ?_
      rintro _ ⟨place, rfl⟩
      exact .here
  | @unary mark op operand location place tokens hop _ ih =>
      obtain ⟨htext, hmark⟩ := text_of_mem_prefixOps hop
      rw [render, htext]
      refine (scans_mark hmark (ih hshort)).imp ?_
      rintro _ ⟨place, others, hothers, rfl⟩
      exact .unary hop hothers
  | @binary level mark op left right _ _ _ _ _ _ _ hop _ _ ihleft ihright =>
      obtain ⟨htext, hmark, c, more, hhead, hc⟩ := text_of_mem_infixOps hop
      rw [isWritable, Bool.and_eq_true] at hshort
      have hleft := scans_enclosed left.isBinary (ihleft hshort.1)
      have hright := scans_mark hmark (scans_enclosed right.isBinary (ihright hshort.2))
      -- the operator cannot go on what stands before it
      have hwhole := scans_append hleft hright fun rest _ => by
        rw [String.toList_append, hhead]
        exact Text.stops_cons.mpr hc
      rw [render, htext, String.append_assoc]
      refine hwhole.imp ?_
      rintro _ ⟨_, _, ⟨opening, closing, first, hfirst, rfl⟩,
        ⟨place, _, ⟨opening', closing', last, hlast, rfl⟩, rfl⟩, rfl⟩
      exact .binary hop hfirst hlast

end Scanning

/-- Every token before the end of a text is spelled by a word. -/
theorem exists_spells_of_cut {file : String} {before text : List Char}
    (h : Token.Cut file before text tokens) {token : Token} (hmem : token ∈ tokens) :
    token.kind = .endOfInput ∨ ∃ lexeme rest, Lexeme.Spells lexeme token.kind rest := by
  induction h with
  | done _ =>
      obtain rfl := List.mem_singleton.mp hmem
      exact .inl rfl
  | @token _ _ lexeme rest _ _ _ hspells _ ih =>
      rcases List.mem_cons.mp hmem with rfl | hmem
      · exact .inr ⟨lexeme, rest, hspells⟩
      · exact ih hmem

/-! ## Formatting and reading -/

/-- Every expression that is read from tokens of the language has a text, unless a number in it has
too many digits, and this text can be scanned and read again.  What comes back differs from the
expression in more than its places exactly if a unary operator is applied to a binary operation in
it. -/
theorem reread_render_iff {source file : String} {all : List Token} {fallback : Option Location}
    {t : Expr} (hscan : Token.scan source file = .ok all) (htokens : tokens ⊆ all)
    (hread : read tokens fallback = .ok t) (file' : String) :
    (t.isWritable = true → ∃ text tokens' last t', t.format = .ok text ∧
      Token.scan text file' = .ok (tokens' ++ [⟨.endOfInput, last⟩]) ∧
      (∀ fallback', read tokens' fallback' = .ok t') ∧
      (t'.bare = t.bare ↔ t.isTight = true)) ∧
    (t.isWritable = false → t.format = .error .unwritten) := by
  refine ⟨fun hshort => ?_, fun hlong => Digits.writing_eq_error.mpr ⟨hlong, rfl⟩⟩
  have hderives : Derives 0 tokens t := ofTokens_eq_ok.mp (read_eq_ok.mp hread)
  have hcut := Token.scan_eq_ok.mp hscan
  obtain ⟨written, hwritten⟩ :=
    hderives.exists_writes fun token hmem => exists_spells_of_cut hcut (htokens hmem)
  have hscans : Scans file' t.render (Writes t) := hwritten.scans hshort
  obtain ⟨tokens', hwrites, hcut'⟩ := hscans [] [] _ Text.stops_nil .finish
  rw [List.append_nil] at hcut'
  obtain ⟨t', hderives'⟩ := hwrites.exists_derives
  exact ⟨t.render, tokens', _, t', Digits.writing_eq_ok.mpr ⟨hshort, rfl⟩,
    Token.scan_eq_ok.mpr hcut', fun _ => read_eq_ok.mpr (ofTokens_eq_ok.mpr hderives'),
    hwrites.bare_eq_iff hderives'⟩

/-- A sum of products, differences and shifts, in which unary operators stand before a name, before
each other and before parentheses. -/
def tightSource : String := "-~a*(b-(0x1F-$)) + 'x'<<+2"

theorem reread_render_tightSource :
    ∃ all t, Token.scan tightSource "f" = .ok all ∧ read all.dropLast none = .ok t ∧
      t.isWritable = true ∧ ∃ text tokens' last t', t.format = .ok text ∧
        Token.scan text "g" = .ok (tokens' ++ [⟨.endOfInput, last⟩]) ∧
        (∀ fallback, read tokens' fallback = .ok t') ∧ t'.bare = t.bare := by
  -- reading, writability and tightness are evaluated in one go
  have hok : ((Token.scan tightSource "f").toOption.bind fun all =>
      (read all.dropLast none).toOption).map (fun t => t.isWritable && t.isTight) = some true := by
    decide +kernel
  rcases hscan : Token.scan tightSource "f" with fault | all
  · rw [hscan] at hok
    cases hok
  · rcases hread : read all.dropLast none with fault | t
    · simp only [hscan, Except.toOption, Option.bind_some, hread] at hok
      cases hok
    · simp only [hscan, Except.toOption, Option.bind_some, hread, Option.map_some,
        Option.some.injEq, Bool.and_eq_true] at hok
      obtain ⟨text, tokens', last, t', htext, hscan', hread', hbare⟩ :=
        (reread_render_iff hscan (List.dropLast_subset all) hread "g").1 hok.1
      exact ⟨all, t, rfl, hread, hok.1, text, tokens', last, t', htext, hscan', hread',
        hbare.mpr hok.2⟩

/-- The negative of a sum is written like the sum of a negative, and read as that. -/
theorem render_negated_sum :
    ∃ tokens t tokens' t',
      Token.scan "-(1+2)" "f" = .ok (tokens ++ [⟨.endOfInput, ⟨"f", 1, 7⟩⟩]) ∧
      read tokens none = .ok t ∧ t.format = .ok "-1+2" ∧
      Token.scan "-1+2" "f" = .ok (tokens' ++ [⟨.endOfInput, ⟨"f", 1, 5⟩⟩]) ∧
      read tokens' none = .ok t' ∧ t'.bare ≠ t.bare := by
  refine ⟨[⟨.mark .minus, ⟨"f", 1, 1⟩⟩, ⟨.mark .leftParen, ⟨"f", 1, 2⟩⟩, ⟨.number 1, ⟨"f", 1, 3⟩⟩,
      ⟨.mark .plus, ⟨"f", 1, 4⟩⟩, ⟨.number 2, ⟨"f", 1, 5⟩⟩, ⟨.mark .rightParen, ⟨"f", 1, 6⟩⟩],
    .un .minus (.bin .add (.num 1 (some ⟨"f", 1, 3⟩)) (.num 2 (some ⟨"f", 1, 5⟩)))
      (some ⟨"f", 1, 1⟩),
    [⟨.mark .minus, ⟨"f", 1, 1⟩⟩, ⟨.number 1, ⟨"f", 1, 2⟩⟩, ⟨.mark .plus, ⟨"f", 1, 3⟩⟩,
      ⟨.number 2, ⟨"f", 1, 4⟩⟩],
    .bin .add (.un .minus (.num 1 (some ⟨"f", 1, 2⟩)) (some ⟨"f", 1, 1⟩))
      (.num 2 (some ⟨"f", 1, 4⟩)), by rfl, by rfl, by rfl, by rfl, by rfl, by decide⟩

end Subleq.Expr
