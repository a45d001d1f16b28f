import Mathlib
import Subleq.Expr.Reader

/-!
# The grammar of expressions

`Expr.Derives level tokens e` says that the tokens, all of them, form the expression `e` at a level
of the precedence grammar.  Levels 0 to 5 are those of the binary operators, loosest first, each of
them grouping to the left; level 6 is that of the unary operators; level 7 is that of numbers,
names, `$` and parentheses.  The trees of the grammar carry the places of their tokens.

The reader keeps a stack of open frames and knows nothing of levels below the top of it.  Two facts
connect it with the grammar.  What is derived is read (`Derives.reads`): read on top of frames that
bind more loosely, the tokens leave a value that operators to the right cannot tell from the whole
expression.  What is read is derived (`Reading.Spells.step`): the frames and the value always spell
the tokens read so far, with a derivation for each part.  Since the reader is a function, an
expression is derived in one way only.
-/

namespace Subleq.Expr

/-! ## The grammar -/

def infixOps : (level : Nat) → List (Mark × BinaryOp)
  | 0 => [(.pipe, .or)]
  | 1 => [(.caret, .xor)]
  | 2 => [(.ampersand, .and)]
  | 3 => [(.leftShift, .shiftLeft), (.rightShift, .shiftRight)]
  | 4 => [(.plus, .add), (.minus, .sub)]
  | 5 => [(.star, .mul), (.slash, .div), (.percent, .mod)]
  | _ => []

def prefixOps : List (Mark × UnaryOp) := [(.minus, .minus), (.plus, .plus), (.tilde, .complement)]

/-- The tokens form the expression, at a level. -/
inductive Derives : (level : Nat) → List Token → Expr → Prop
  | number {value : Nat} {location : Location} :
      Derives 7 [⟨.number value, location⟩] (.num value (some location))
  | identifier {name : String} {location : Location} :
      Derives 7 [⟨.identifier name, location⟩] (.sym name (some location))
  | here {location : Location} : Derives 7 [⟨.mark .dollar, location⟩] (.here (some location))
  | paren {opening closing : Location} {tokens : List Token} {e : Expr} :
      Derives 0 tokens e →
      Derives 7 (⟨.mark .leftParen, opening⟩ :: tokens ++ [⟨.mark .rightParen, closing⟩]) e
  | unary {mark : Mark} {op : UnaryOp} {location : Location} {tokens : List Token} {e : Expr} :
      (mark, op) ∈ prefixOps → Derives 6 tokens e →
      Derives 6 (⟨.mark mark, location⟩ :: tokens) (.un op e (some location))
  | binary {level : Nat} {mark : Mark} {op : BinaryOp} {location : Location}
      {left right : List Token} {e e' : Expr} :
      (mark, op) ∈ infixOps level → Derives level left e → Derives (level + 1) right e' →
      Derives level (left ++ ⟨.mark mark, location⟩ :: right) (.bin op e e')
  | tighter {level : Nat} {tokens : List Token} {e : Expr} :
      Derives (level + 1) tokens e → Derives level tokens e

/-- What binds tightly may stand where less is asked for. -/
theorem Derives.loosen {level loose : Nat} {tokens : List Token} {e : Expr}
    (h : Derives level tokens e) (hle : loose ≤ level) : Derives loose tokens e := by
  induction level, hle using Nat.le_induction with
  | base => exact h
  | succ level _ ih => exact ih h.tighter

/-! ## The operators of the reader -/

/-- The operators of a level are those that the scanner knows by their marks. -/
theorem mem_infixOps {level : Nat} {mark : Mark} {op : BinaryOp} :
    (mark, op) ∈ infixOps level ↔
      (Token.Kind.mark mark).binaryOp? = some op ∧ op.level = level := by
  constructor
  · have htable : ∀ pair ∈ infixOps level,
        (Token.Kind.mark pair.1).binaryOp? = some pair.2 ∧ pair.2.level = level := by
      match level with
      | 0 | 1 | 2 | 3 | 4 | 5 => decide
      | _ + 6 => exact fun pair hpair => absurd hpair List.not_mem_nil
    exact htable (mark, op)
  · rintro ⟨hop, rfl⟩
    cases mark <;> simp only [Token.Kind.binaryOp?, Option.some.injEq, reduceCtorEq] at hop <;>
      subst hop <;> decide

/-- Binary operators bind less than unary ones. -/
theorem level_lt_of_mem_infixOps {level : Nat} {mark : Mark} {op : BinaryOp}
    (h : (mark, op) ∈ infixOps level) : level < 6 := by
  by_contra hlarge
  obtain ⟨rest, rfl⟩ : ∃ rest, level = rest + 6 := ⟨level - 6, by omega⟩
  exact absurd h List.not_mem_nil

/-- An operator that a token stands for is in the table of its level. -/
theorem exists_mark_of_binaryOp? {kind : Token.Kind} {op : BinaryOp}
    (h : kind.binaryOp? = some op) :
    ∃ mark, kind = .mark mark ∧ (mark, op) ∈ infixOps op.level := by
  cases kind with
  | mark mark => exact ⟨mark, rfl, mem_infixOps.mpr ⟨h, rfl⟩⟩
  | _ => cases h

/-- The unary operators are those that the scanner knows by their marks. -/
theorem mem_prefixOps {mark : Mark} {op : UnaryOp} :
    (mark, op) ∈ prefixOps ↔ (Token.Kind.mark mark).unaryOp? = some op := by
  cases mark <;> cases op <;> simp [prefixOps, Token.Kind.unaryOp?]

/-- A unary operator that a token stands for is in the table. -/
theorem exists_mark_of_unaryOp? {kind : Token.Kind} {op : UnaryOp}
    (h : kind.unaryOp? = some op) : ∃ mark, kind = .mark mark ∧ (mark, op) ∈ prefixOps := by
  cases kind with
  | mark mark => exact ⟨mark, rfl, mem_prefixOps.mpr h⟩
  | _ => cases h

/-! ## Frames that an expression can be read on -/

/-- What is open binds more loosely than the operators of a level.  Under an open unary operator
nothing with a binary operator can be read. -/
def Admits (level : Nat) : List Frame → Prop
  | .unary _ _ :: _ => False
  | .binary _ op :: _ => op.level < level
  | _ => True

/-- Frames that admit an operator admit one that binds tighter. -/
theorem Admits.mono {level tight : Nat} {frames : List Frame} (h : Admits level frames)
    (hle : level ≤ tight) : Admits tight frames := by
  match frames, h with
  | .binary _ op :: _, h => exact Nat.lt_of_lt_of_le h hle
  | .paren :: _, _ => trivial
  | [], _ => trivial

/-- An operator that the frames admit closes none of them. -/
theorem closeBinary_of_admits {level : Nat} {frames : List Frame} (h : Admits level frames)
    (value : Expr) : closeBinary level frames value = (frames, value) := by
  match frames, h with
  | .binary _ op :: _, h => exact if_neg (Nat.not_le.mpr h)
  | .paren :: _, _ => rfl
  | [], _ => rfl

/-- An operand that nothing waits for is taken as it is. -/
theorem take_of_admits {level : Nat} {frames : List Frame} (h : Admits level frames)
    (value : Expr) : Reading.take frames value = .having frames value := by
  match frames, h with
  | .binary _ _ :: _, _ => rfl
  | .paren :: _, _ => rfl
  | [], _ => rfl

/-! ## What is derived is read -/

/-- Reading the tokens on top of the frames leaves a value.  It may stand on more frames than there
were, but an operator that binds no tighter than `level` finds what it would find after `e`. -/
def Arrives (level : Nat) (frames : List Frame) (tokens : List Token) (e : Expr) : Prop :=
  ∃ frames' value,
    tokens.foldlM Reading.step (.wanting frames) = .ok (.having frames' value) ∧
      ∀ k ≤ level, closeBinary k frames' value = closeBinary k frames e

/-- Below level 6 an expression can be read on frames that bind more loosely; from there on it can
be read on all frames, and the unary operators among them are applied to it. -/
def Reads (level : Nat) (tokens : List Token) (e : Expr) : Prop :=
  ∀ frames, (Admits level frames → Arrives level frames tokens e) ∧
    (6 ≤ level → tokens.foldlM Reading.step (.wanting frames) = .ok (.take frames e))

/-- It is enough to know where reading stands after the tokens. -/
theorem reads_of_take {level : Nat} {tokens : List Token} {e : Expr}
    (h : ∀ frames, tokens.foldlM Reading.step (.wanting frames) = .ok (.take frames e)) :
    Reads level tokens e := by
  intro frames
  refine ⟨fun hadmits => ⟨frames, e, ?_, fun _ _ => rfl⟩, fun _ => h frames⟩
  rw [h frames, take_of_admits hadmits]

/-- Reading goes on from where the first tokens have led. -/
theorem foldlM_append_of_ok {before after : List Token} {start middle : Reading}
    (h : before.foldlM Reading.step start = .ok middle) :
    (before ++ after).foldlM Reading.step start = after.foldlM Reading.step middle := by
  rw [List.foldlM_append, h]
  rfl

/-- What is read in parentheses is read as an operand. -/
theorem reads_paren {opening closing : Location} {tokens : List Token} {e : Expr}
    (h : Reads 0 tokens e) :
    Reads 7 (⟨.mark .leftParen, opening⟩ :: tokens ++ [⟨.mark .rightParen, closing⟩]) e := by
  apply reads_of_take
  intro frames
  obtain ⟨frames', value, hread, hclose⟩ := (h (.paren :: frames)).1 trivial
  have hclosed : closeBinary 0 frames' value = (.paren :: frames, e) := hclose 0 le_rfl
  show (tokens ++ [_]).foldlM Reading.step (.wanting (.paren :: frames)) = _
  rw [foldlM_append_of_ok hread, List.foldlM_cons, Reading.step, Reading.stepHaving]
  simp only [Token.Kind.binaryOp?, hclosed]
  rfl

/-- A unary operator waits for its operand. -/
theorem reads_unary {mark : Mark} {op : UnaryOp} {location : Location} {tokens : List Token}
    {e : Expr} (hop : (mark, op) ∈ prefixOps) (h : Reads 6 tokens e) :
    Reads 6 (⟨.mark mark, location⟩ :: tokens) (.un op e (some location)) := by
  apply reads_of_take
  intro frames
  have hstep : Reading.step (.wanting frames) ⟨.mark mark, location⟩ =
      .ok (.wanting (.unary op location :: frames)) := by
    have hunary := mem_prefixOps.mp hop
    cases mark <;> simp_all [Token.Kind.unaryOp?, Reading.step, Reading.stepWanting]
  rw [List.foldlM_cons, hstep]
  exact (h (.unary op location :: frames)).2 le_rfl

/-- A binary operator closes what binds as tightly on its left, and waits for its right operand. -/
theorem reads_binary {level : Nat} {mark : Mark} {op : BinaryOp} {location : Location}
    {left right : List Token} {e e' : Expr} (hop : (mark, op) ∈ infixOps level)
    (hleft : Reads level left e) (hright : Reads (level + 1) right e') :
    Reads level (left ++ ⟨.mark mark, location⟩ :: right) (.bin op e e') := by
  have hlevel := level_lt_of_mem_infixOps hop
  obtain ⟨hbinary, rfl⟩ := mem_infixOps.mp hop
  intro frames
  refine ⟨fun hadmits => ?_, fun hunary => absurd hlevel (by omega)⟩
  obtain ⟨frames₁, value₁, hread₁, hclose₁⟩ := (hleft frames).1 hadmits
  -- The operator closes what its left operand has left open, and nothing to the left of that.
  have hclosed : closeBinary op.level frames₁ value₁ = (frames, e) := by
    rw [hclose₁ _ le_rfl, closeBinary_of_admits hadmits]
  have hstep : Reading.step (.having frames₁ value₁) ⟨.mark mark, location⟩ =
      .ok (.wanting (.binary e op :: frames)) := by
    rw [Reading.step, Reading.stepHaving, hbinary]
    simp only [hclosed]
  obtain ⟨frames₂, value₂, hread₂, hclose₂⟩ :=
    (hright (.binary e op :: frames)).1 (Nat.lt_succ_self _)
  refine ⟨frames₂, value₂, ?_, ?_⟩
  · rw [foldlM_append_of_ok hread₁, List.foldlM_cons, hstep]
    exact hread₂
  · intro k hk
    rw [hclose₂ k (by omega), closeBinary, if_pos hk]

/-- What the grammar derives is read. -/
theorem Derives.reads {level : Nat} {tokens : List Token} {e : Expr}
    (h : Derives level tokens e) : Reads level tokens e := by
  induction h with
  | number => exact reads_of_take fun _ => rfl
  | identifier => exact reads_of_take fun _ => rfl
  | here => exact reads_of_take fun _ => rfl
  | paren _ ih => exact reads_paren ih
  | unary hop _ ih => exact reads_unary hop ih
  | binary hop _ _ ihleft ihright => exact reads_binary hop ihleft ihright
  | @tighter level tokens e _ ih =>
      intro frames
      refine ⟨fun hadmits => ?_, fun hunary => (ih frames).2 (by omega)⟩
      obtain ⟨frames', value, hread, hclose⟩ := (ih frames).1 (hadmits.mono (Nat.le_succ _))
      exact ⟨frames', value, hread, fun k hk => hclose k (by omega)⟩

/-! ## What is read is derived -/

/-- The frames, from the innermost outwards, spell the tokens from the last one backwards.  The left
operand of an open binary operator is an expression of the operator's level, on frames that such an
expression can be read on. -/
inductive Opened : List Frame → List Token → Prop
  | nil : Opened [] []
  | paren {location : Location} {frames : List Frame} {tokens : List Token} :
      Opened frames tokens →
      Opened (.paren :: frames) (tokens ++ [⟨.mark .leftParen, location⟩])
  | unary {mark : Mark} {op : UnaryOp} {location : Location} {frames : List Frame}
      {tokens : List Token} :
      (mark, op) ∈ prefixOps → Opened frames tokens →
      Opened (.unary op location :: frames) (tokens ++ [⟨.mark mark, location⟩])
  | binary {level : Nat} {mark : Mark} {op : BinaryOp} {location : Location}
      {frames : List Frame} {tokens left : List Token} {e : Expr} :
      (mark, op) ∈ infixOps level → Admits level frames → Opened frames tokens →
      Derives level left e →
      Opened (.binary e op :: frames) (tokens ++ left ++ [⟨.mark mark, location⟩])

/-- What has been read stands for the tokens that were read. -/
def Reading.Spells : Reading → List Token → Prop
  | wanting frames, tokens => Opened frames tokens
  | having frames value, tokens => ∃ before own, tokens = before ++ own ∧
      Opened frames before ∧ Admits 6 frames ∧ Derives 6 own value

/-- Unary operators bind tighter than everything that is open to their left. -/
theorem spells_take {frames : List Frame} {before own : List Token} {value : Expr}
    (hopened : Opened frames before) (hvalue : Derives 6 own value) :
    (Reading.take frames value).Spells (before ++ own) := by
  induction hopened generalizing own value with
  | nil => exact ⟨[], own, rfl, .nil, trivial, hvalue⟩
  | paren hframes _ => exact ⟨_, own, rfl, .paren hframes, trivial, hvalue⟩
  | unary hop hframes ih =>
      rw [List.append_assoc]
      exact ih (.unary hop hvalue)
  | binary hop hadmits hframes hleft _ =>
      have hlevel := level_lt_of_mem_infixOps hop
      obtain ⟨-, rfl⟩ := mem_infixOps.mp hop
      exact ⟨_, own, rfl, .binary hop hadmits hframes hleft, hlevel, hvalue⟩

/-- Closing the operators of a level and all tighter ones leaves an expression of that level. -/
theorem derives_closeBinary {level tight : Nat} {frames : List Frame} {before own : List Token}
    {value : Expr} (hopened : Opened frames before) (hadmits : Admits tight frames)
    (hle : level ≤ tight) (hvalue : Derives tight own value) :
    ∃ before' own', before ++ own = before' ++ own' ∧
      Opened (closeBinary level frames value).1 before' ∧
      Admits level (closeBinary level frames value).1 ∧
      Derives level own' (closeBinary level frames value).2 := by
  -- the induction goes down the frames, up to the first one that stays open
  induction hopened generalizing own value tight with
  | nil => exact ⟨[], own, rfl, .nil, trivial, hvalue.loosen hle⟩
  | paren hframes _ => exact ⟨_, own, rfl, .paren hframes, trivial, hvalue.loosen hle⟩
  | unary => exact hadmits.elim
  | @binary _ mark op location frames tokens left e hop hframes hopened hleft ih =>
      obtain ⟨-, rfl⟩ := mem_infixOps.mp hop
      by_cases hclose : level ≤ op.level
      -- the frame is an operator that binds at least as tightly, so it takes the value
      · have hright : Derives (op.level + 1) own value := hvalue.loosen hadmits
        rw [closeBinary, if_pos hclose]
        have hwhole : Derives op.level (left ++ ⟨.mark mark, location⟩ :: own) (.bin op e value) :=
          .binary hop hleft hright
        obtain ⟨before', own', heq, hrest⟩ := ih hframes hclose hwhole
        refine ⟨before', own', ?_, hrest⟩
        rw [← heq]
        simp only [List.append_assoc, List.singleton_append]
      -- the operator binds less tightly and waits for more
      · rw [closeBinary, if_neg hclose]
        exact ⟨_, own, rfl, .binary hop hframes hopened hleft, Nat.not_le.mp hclose,
          hvalue.loosen hle⟩

/-- A token in the place of an operand keeps what has been spelled. -/
theorem spells_stepWanting {frames : List Frame} {tokens : List Token} {token : Token}
    {reading : Reading} (h : Opened frames tokens)
    (hstep : Reading.stepWanting frames token = .ok reading) :
    reading.Spells (tokens ++ [token]) := by
  obtain ⟨kind, location⟩ := token
  rw [Reading.stepWanting] at hstep
  -- a number, a name or `$` is a value; a parenthesis or a unary operator opens a frame
  split at hstep
  case h_1 hkind | h_2 hkind | h_3 hkind =>
    obtain rfl : kind = _ := hkind
    obtain rfl := Except.ok.inj hstep
    exact spells_take h (by constructor; constructor)
  case h_4 hkind =>
    obtain rfl : kind = _ := hkind
    obtain rfl := Except.ok.inj hstep
    exact .paren h
  case h_5 => cases hstep
  case h_6 =>
    split at hstep
    case h_1 op hop =>
      obtain ⟨mark, rfl, hmem⟩ := exists_mark_of_unaryOp? hop
      obtain rfl := Except.ok.inj hstep
      exact .unary hmem h
    case h_2 => cases hstep

/-- So does one behind an operand. -/
theorem spells_stepHaving {frames : List Frame} {value : Expr} {tokens : List Token}
    {token : Token} {reading : Reading} (h : (Reading.having frames value).Spells tokens)
    (hstep : Reading.stepHaving frames value token = .ok reading) :
    reading.Spells (tokens ++ [token]) := by
  obtain ⟨before, own, rfl, hopened, hadmits, hvalue⟩ := h
  obtain ⟨kind, location⟩ := token
  rw [Reading.stepHaving] at hstep
  cases hop : kind.binaryOp? with
  | some op =>
      obtain ⟨mark, rfl, hmem⟩ := exists_mark_of_binaryOp? hop
      obtain ⟨before', own', heq, hframes, hbelow, hleft⟩ :=
        derives_closeBinary hopened hadmits (level_lt_of_mem_infixOps hmem).le hvalue
      simp only [hop] at hstep
      obtain rfl := Except.ok.inj hstep
      rw [heq]
      exact .binary hmem hbelow hframes hleft
  | none =>
      -- no operator follows, so everything up to the last open parenthesis is closed
      obtain ⟨before', own', heq, hframes, -, hinside⟩ :=
        derives_closeBinary hopened hadmits (Nat.zero_le 6) hvalue
      simp only [hop] at hstep
      split at hstep
      case h_1 frames' inside hclosed =>
        rw [hclosed] at hframes hinside
        split_ifs at hstep with hkind
        obtain rfl : kind = _ := hkind
        obtain rfl := Except.ok.inj hstep
        cases hframes with
        | paren houtside =>
            rw [heq, List.append_assoc, List.append_assoc]
            exact spells_take houtside (.tighter (.paren hinside))
      case h_2 => cases hstep

/-- So does every step. -/
theorem Reading.Spells.step {reading reading' : Reading} {tokens : List Token} {token : Token}
    (h : reading.Spells tokens) (hstep : reading.step token = .ok reading') :
    reading'.Spells (tokens ++ [token]) := by
  cases reading with
  | wanting frames => exact spells_stepWanting h hstep
  | having frames value => exact spells_stepHaving h hstep

/-- So does a run. -/
theorem Reading.Spells.run {reading reading' : Reading} {before tokens : List Token}
    (h : reading.Spells before) (hrun : tokens.foldlM Reading.step reading = .ok reading') :
    reading'.Spells (before ++ tokens) := by
  induction tokens generalizing reading before with
  | nil =>
      obtain rfl := Except.ok.inj hrun
      rwa [List.append_nil]
  | cons token rest ih =>
      rw [List.foldlM_cons] at hrun
      cases hstep : reading.step token with
      | error reason =>
          rw [hstep] at hrun
          cases hrun
      | ok middle =>
          rw [hstep] at hrun
          rw [List.append_cons]
          exact ih (h.step hstep) hrun

/-! ## The reader and the grammar -/

theorem Derives.ne_nil {level : Nat} {tokens : List Token} {e : Expr}
    (h : Derives level tokens e) : tokens ≠ [] := by
  induction h with
  | tighter _ ih => exact ih
  | _ => simp

/-- A reading that can be finished has spelled the expression. -/
theorem derives_of_finish {reading : Reading} {tokens : List Token} {e : Expr}
    (h : reading.Spells tokens) (hfinish : reading.finish = .ok e) : Derives 0 tokens e := by
  cases reading with
  | wanting frames => cases hfinish
  | having frames value =>
      obtain ⟨before, own, rfl, hopened, hadmits, hvalue⟩ := h
      -- at the end every operator closes, and no parenthesis may be left open
      obtain ⟨before', own', heq, hframes, -, hwhole⟩ :=
        derives_closeBinary hopened hadmits (Nat.zero_le 6) hvalue
      rw [Reading.finish] at hfinish
      split at hfinish
      case h_1 whole hclosed =>
        obtain rfl := Except.ok.inj hfinish
        rw [hclosed] at hframes hwhole
        cases hframes with
        | nil => rwa [heq]
      case h_2 => cases hfinish

/-- The reader accepts exactly what the grammar derives, and returns the tree of the derivation. -/
theorem ofTokens_eq_ok {tokens : List Token} {fallback : Option Location} {e : Expr} :
    ofTokens tokens fallback = .ok e ↔ Derives 0 tokens e := by
  -- the reader is followed token by token one way, and the derivation node by node the other way
  constructor
  · intro h
    rw [ofTokens] at h
    split at h
    case h_1 => cases h
    case h_2 last _ =>
      cases hrun : tokens.foldlM Reading.step (.wanting []) with
      | error reason =>
          rw [hrun] at h
          cases h
      | ok reading =>
          have hspells : reading.Spells ([] ++ tokens) :=
            Reading.Spells.run (show (Reading.wanting []).Spells [] from .nil) hrun
          rw [hrun] at h
          cases hfinish : reading.finish with
          | error reason =>
              simp only [bind, Except.bind, hfinish] at h
              cases h
          | ok value =>
              simp only [bind, Except.bind, hfinish] at h
              obtain rfl := Except.ok.inj h
              exact derives_of_finish hspells hfinish
  · intro h
    obtain ⟨last, hlast⟩ : ∃ last, tokens.getLast? = some last :=
      ⟨_, List.getLast?_eq_some_getLast h.ne_nil⟩
    obtain ⟨frames, value, hrun, hclose⟩ := (h.reads []).1 trivial
    have hclosed : closeBinary 0 frames value = ([], e) := hclose 0 le_rfl
    simp only [ofTokens, hlast, hrun, bind, Except.bind, Reading.finish, hclosed]

/-- An expression by itself is read as one in a line is. -/
theorem read_eq_ok {tokens : List Token} {fallback : Option Location} {e : Expr} :
    read tokens fallback = .ok e ↔ ofTokens tokens fallback = .ok e := by
  rw [read]
  cases ofTokens tokens fallback <;> simp

/-! ## Numbers of too many digits -/

/-- The numbers of a derived expression are those of its tokens. -/
theorem Derives.isWritable {level : Nat} {tokens : List Token} {e : Expr}
    (h : Derives level tokens e) (htokens : ∀ token ∈ tokens, token.kind.isWritable = true) :
    e.isWritable = true := by
  induction h with
  | number => exact htokens _ List.mem_cons_self
  | identifier | here => rfl
  | paren _ ih =>
      refine ih fun token hmem => htokens token (List.mem_cons_of_mem _ ?_)
      exact List.mem_append_left _ hmem
  | unary _ _ ih => exact ih fun token hmem => htokens token (List.mem_cons_of_mem _ hmem)
  | binary _ _ _ ihleft ihright =>
      refine Bool.and_eq_true_iff.mpr ⟨ihleft fun token hmem => ?_, ihright fun token hmem => ?_⟩
      · exact htokens token (List.mem_append_left _ hmem)
      · exact htokens token (List.mem_append_right _ (List.mem_cons_of_mem _ hmem))
  | tighter _ ih => exact ih htokens

/-- A step is refused with the token that is read, if with any. -/
theorem Reading.isWritable_of_step {reading : Reading} {token : Token} {reason : Malformed}
    {location : Option Location} (h : reading.step token = .error (reason, location))
    (htoken : token.kind.isWritable = true) : reason.isWritable = true := by
  -- only a token that is out of place is quoted
  cases reading with
  | wanting frames =>
      rw [step, stepWanting] at h
      split at h
      case h_5 =>
        cases h
        rfl
      case h_6 =>
        split at h
        · cases h
        · cases h
          exact htoken
      all_goals cases h
  | having frames value =>
      rw [step, stepHaving] at h
      split at h
      · cases h
      · split at h
        · split at h
          · cases h
          · cases h
            rfl
        · cases h
          exact htoken

/-- A refusal can be worded if the tokens can be written. -/
theorem Reading.isWritable_of_run {reading : Reading} {tokens : List Token} {reason : Malformed}
    {location : Option Location} (h : tokens.foldlM step reading = .error (reason, location))
    (htokens : ∀ token ∈ tokens, token.kind.isWritable = true) : reason.isWritable = true := by
  induction tokens generalizing reading with
  | nil => cases h
  | cons token rest ih =>
      rw [List.forall_mem_cons] at htokens
      rw [List.foldlM_cons] at h
      cases hstep : reading.step token with
      | error refusal =>
          rw [hstep] at h
          obtain rfl := Except.error.inj h
          exact isWritable_of_step hstep htokens.1
      | ok next =>
          rw [hstep] at h
          exact ih h htokens.2

/-- Why tokens are no expression can be said if their numbers can be written. -/
theorem isWritable_of_ofTokens {tokens : List Token} {fallback location : Option Location}
    {reason : Malformed} (h : ofTokens tokens fallback = .error (reason, location))
    (htokens : ∀ token ∈ tokens, token.kind.isWritable = true) : reason.isWritable = true := by
  rw [ofTokens] at h
  split at h
  · cases h
    rfl
  · cases hrun : tokens.foldlM Reading.step (.wanting []) with
    | error refusal =>
        rw [hrun] at h
        obtain rfl := Except.error.inj h
        exact Reading.isWritable_of_run hrun htokens
    | ok reading =>
        rw [hrun] at h
        cases hfinish : reading.finish with
        | ok value =>
            simp only [bind, Except.bind, hfinish] at h
            cases h
        | error refusal =>
            simp only [bind, Except.bind, hfinish] at h
            cases h
            -- what is missing at the end is no token
            cases reading with
            | wanting frames =>
                obtain rfl := Except.error.inj hfinish
                rfl
            | having frames value =>
                rw [Reading.finish] at hfinish
                split at hfinish
                · cases hfinish
                · obtain rfl := Except.error.inj hfinish
                  rfl

end Subleq.Expr
