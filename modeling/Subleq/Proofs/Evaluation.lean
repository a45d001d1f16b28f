import Subleq.Expr.Value
import Subleq.Proofs.Cell
import Subleq.Proofs.Folding

/-!
# Plain evaluation

`Expr.eval` is the value of an expression in an environment, without a state and without
diagnostics: what stands at every node is wrapped, and an expression without a value has none.
`Expr.fold` is tied to it by `Expr.fold_sound`: whatever folding does to its state on the way, as
long as the environment of the state only grows, the value that it gives is the plain one in the
environment that it leaves behind.  Folding does not wrap names, `$` and what a unary plus stands
before; it need not, since their values fit into a cell.

An environment that grows keeps all values (`Expr.eval_mono`), so a value that was computed early,
when few names had one, is still right at the end.
-/

namespace Subleq

/-- Where names get their values from.  A name may have none. -/
abbrev Environment : Type := String → Option Int

/-- The second environment has all the values of the first. -/
def Environment.Le (env env' : Environment) : Prop :=
  ∀ name value, env name = some value → env' name = some value

/-- A value that two environments keep one after the other is kept. -/
theorem Environment.Le.trans {env env' env'' : Environment} (h : env.Le env') (h' : env'.Le env'') :
    env.Le env'' := fun name value hv => h' name value (h name value hv)

/-- The exact result of a unary operation. -/
def UnaryOp.apply : UnaryOp → Int → Int
  | minus, x => -x
  | complement, x => Bitwise.complement x
  | plus, x | inert _, x => x

/-- The result of a binary operation, if it has one. -/
def BinaryOp.eval (width : Width) (op : BinaryOp) (x y : Int) : Option Int :=
  match op.apply width x y with
  | .ok result => some (width.wrap result)
  | .error _ => none

namespace Expr

/-- The value of an expression in an environment, where `here` is the value of `$`, with wrapping at
every node. -/
def eval (width : Width) (env : Environment) (here : Option Int) : Expr → Option Int
  | .num value _ => some (width.wrap value)
  | .sym name _ => (env name).map width.wrap
  | .here _ => here.map width.wrap
  | .un op operand _ => (operand.eval width env here).map fun x => width.wrap (op.apply x)
  | .bin op left right =>
      match left.eval width env here, right.eval width env here with
      | some x, some y => op.eval width x y
      | _, _ => none

variable {width : Width} {env env' : Environment} {here : Option Int}

/-- The value of a binary operation, in terms of those of its operands. -/
theorem eval_bin_eq_some {op : BinaryOp} {left right : Expr} {value : Int} :
    (bin op left right).eval width env here = some value ↔
      ∃ x y, left.eval width env here = some x ∧ right.eval width env here = some y ∧
        op.eval width x y = some value := by
  rw [eval]
  rcases left.eval width env here with _ | x <;> rcases right.eval width env here with _ | y <;>
    simp

/-- A larger environment gives the same values. -/
theorem eval_mono (hle : env.Le env') (e : Expr) {value : Int}
    (h : e.eval width env here = some value) : e.eval width env' here = some value := by
  -- by induction on the expression; only names look at the environment
  induction e generalizing value with
  | num _ _ => exact h
  | sym name _ =>
      rw [eval, Option.map_eq_some_iff] at h ⊢
      obtain ⟨x, hx, rfl⟩ := h
      exact ⟨x, hle name x hx, rfl⟩
  | here _ => exact h
  | un op operand _ ih =>
      rw [eval, Option.map_eq_some_iff] at h ⊢
      obtain ⟨x, hx, rfl⟩ := h
      exact ⟨x, ih hx, rfl⟩
  | bin op left right ihl ihr =>
      rw [eval_bin_eq_some] at h ⊢
      obtain ⟨x, y, hx, hy, hop⟩ := h
      exact ⟨x, y, ihl hx, ihr hy, hop⟩

/-- A value fits into a cell. -/
theorem fits_eval {e : Expr} {value : Int} (h : e.eval width env here = some value) :
    width.Fits value := by
  -- the result is wrapped last, whatever the operands are
  cases e with
  | num x _ =>
      obtain rfl := Option.some.inj h
      exact width.fits_wrap x
  | sym _ _ | here _ | un _ _ _ =>
      rw [eval, Option.map_eq_some_iff] at h
      obtain ⟨x, -, rfl⟩ := h
      exact width.fits_wrap _
  | bin op left right =>
      obtain ⟨x, y, -, -, hop⟩ := eval_bin_eq_some.mp h
      rw [BinaryOp.eval] at hop
      split at hop
      · obtain rfl := Option.some.inj hop
        exact width.fits_wrap _
      · cases hop

/-! ## Folding gives the plain value

`env` is the environment of a state, `Inv` an invariant of states, and `Grows` how a state may
change.  What is asked of `resolve` is what follows for expressions. -/

open Folding

variable {σ : Type} {arith : Arithmetic} {resolve : String → Option Location → Folding σ Int}

/-- The result of a unary operation that is folded. -/
theorem yields_fold_un {op : UnaryOp} {operand : Expr} {location : Option Location} {s s' : σ}
    {value : Int} (h : Yields ((un op operand location).fold arith resolve here) s value s') :
    ∃ x, Yields (operand.fold arith resolve here) s x s' ∧
      (arith.width.Fits x → value = arith.width.wrap (op.apply x)) := by
  rw [fold, yields_bind] at h
  obtain ⟨x, s₁, hx, hop⟩ := h
  cases op with
  | minus | complement =>
      obtain ⟨hcell, rfl⟩ := yields_liftM.mp hop
      exact ⟨x, hx, fun _ => Arithmetic.eq_wrap_of_toCell hcell⟩
  | plus | inert _ =>
      obtain ⟨rfl, rfl⟩ := yields_pure.mp hop
      exact ⟨x, hx, fun hfits => (Width.wrap_of_fits hfits).symm⟩

/-- The result of a binary operation that is folded: the left operand comes first. -/
theorem yields_fold_bin {op : BinaryOp} {left right : Expr} {s s'' : σ} {value : Int}
    (h : Yields ((bin op left right).fold arith resolve here) s value s'') :
    ∃ x y s', Yields (left.fold arith resolve here) s x s' ∧
      Yields (right.fold arith resolve here) s' y s'' ∧ op.eval arith.width x y = some value := by
  simp only [fold, yields_bind] at h
  obtain ⟨x, s₁, hx, y, s₂, hy, hop⟩ := h
  split at hop
  · next result hresult =>
    obtain ⟨hcell, rfl⟩ := yields_liftM.mp hop
    refine ⟨x, y, s₁, hx, hy, ?_⟩
    rw [BinaryOp.eval, hresult, Arithmetic.eq_wrap_of_toCell hcell]
  · exact absurd hop yields_throw

/-- Whatever folds an expression in a state computes its value in the environment of the state that
it ends in, if looking a name up does so and no state forgets a value. -/
theorem fold_sound (env : σ → Environment) (Inv : σ → Prop) (Grows : σ → σ → Prop)
    (hrefl : ∀ s, Grows s s) (htrans : ∀ {s s' s''}, Grows s s' → Grows s' s'' → Grows s s'')
    (hmono : ∀ {s s'}, Grows s s' → (env s).Le (env s'))
    (hfits : ∀ {s name value}, Inv s → env s name = some value → arith.width.Fits value)
    (hhere : ∀ position, here = some position → arith.width.Fits position)
    (hresolve : ∀ {name location s value s'}, Inv s → Yields (resolve name location) s value s' →
      Inv s' ∧ Grows s s' ∧ env s' name = some value)
    (e : Expr) {s s' : σ} {value : Int} (hs : Inv s)
    (h : Yields (e.fold arith resolve here) s value s') :
    Inv s' ∧ Grows s s' ∧ e.eval arith.width (env s') here = some value := by
  induction e generalizing s s' value with
  | num x location =>
      rw [fold, yields_liftM] at h
      obtain ⟨hcell, rfl⟩ := h
      exact ⟨hs, hrefl _, by rw [eval, Arithmetic.eq_wrap_of_toCell hcell]⟩
  | sym name location =>
      obtain ⟨hs', hgrows, hvalue⟩ := hresolve hs h
      refine ⟨hs', hgrows, ?_⟩
      rw [eval, hvalue, Option.map_some, Width.wrap_of_fits (hfits hs' hvalue)]
  | here location =>
      cases here with
      | none => exact absurd h yields_throw
      | some position =>
          obtain ⟨rfl, rfl⟩ := yields_pure.mp h
          refine ⟨hs, hrefl _, ?_⟩
          rw [eval, Option.map_some, Width.wrap_of_fits (hhere position rfl)]
  | un op operand location ih =>
      obtain ⟨x, hx, hvalue⟩ := yields_fold_un h
      obtain ⟨hs', hgrows, heval⟩ := ih hs hx
      exact ⟨hs', hgrows, by rw [eval, heval, Option.map_some, hvalue (fits_eval heval)]⟩
  | bin op left right ihl ihr =>
      obtain ⟨x, y, s₁, hx, hy, hop⟩ := yields_fold_bin h
      obtain ⟨hs₁, hgrows₁, heval₁⟩ := ihl hs hx
      obtain ⟨hs₂, hgrows₂, heval₂⟩ := ihr hs₁ hy
      refine ⟨hs₂, htrans hgrows₁ hgrows₂, ?_⟩
      -- the right operand may have folded more names, which the left one does not mind
      exact eval_bin_eq_some.mpr ⟨x, y, eval_mono (hmono hgrows₂) left heval₁, heval₂, hop⟩

end Expr

end Subleq
