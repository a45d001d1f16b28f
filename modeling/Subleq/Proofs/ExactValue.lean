import Subleq.Proofs.Bitwise
import Subleq.Proofs.Evaluation
import Subleq.Proofs.Machine
import Subleq.Proofs.Pool

/-!
# Exact values

`Expr.exactValue?` is the value of an expression in the integers, where no result is ever too large.
The arithmetic of cells is compared with it in two ways.

* If results are wrapped, and residues modulo `2 ^ bits` are all that the operations of an
  expression depend on (`Expr.isModular`), then it makes no difference that every intermediate
  result is wrapped: the value is the exact one, wrapped once (`Expr.value_eq_wrap_exact`).
* If arithmetic is strict, an expression has a value just if the exact values of all its subtrees
  fit into a cell, and then it is the exact one (`Expr.strict_value_iff_exact`).  A left shift is
  carried out up to the width only, and that a longer one is exact rests on its result being in
  range.
-/

namespace Subleq

open Folding

/-! ## Operations -/

namespace UnaryOp

/-- The result of an operation in the integers, read as infinite two's-complement words. -/
def exactResult : UnaryOp → Int → Int
  | minus, x => -x
  | complement, x => Int.lnot x
  | plus, x | inert _, x => x

/-- Unary operators are exact as they are. -/
theorem apply_eq_exactResult (op : UnaryOp) (x : Int) : op.apply x = op.exactResult x := by
  cases op with
  | complement => exact Bitwise.complement_eq_lnot x
  | minus | plus | inert _ => rfl

/-- The residue of a result depends on that of the operand only. -/
theorem apply_modEq (op : UnaryOp) {k : Nat} {x x' : Int} (h : x ≡ x' [ZMOD 2 ^ k]) :
    op.apply x ≡ op.apply x' [ZMOD 2 ^ k] := by
  cases op with
  | minus => exact h.neg
  | complement => exact h.neg.sub_right 1
  | plus | inert _ => exact h

end UnaryOp

namespace BinaryOp

/-- The result of an operation in the integers.  Division truncates toward zero, bits are those of
infinite two's-complement words, and a right shift rounds down. -/
def exactResult? : BinaryOp → Int → Int → Option Int
  | add, x, y => some (x + y)
  | sub, x, y => some (x - y)
  | mul, x, y => some (x * y)
  | div, x, y => if y = 0 then none else some (x.tdiv y)
  | mod, x, y => if y = 0 then none else some (x.tmod y)
  | and, x, y => some (Int.land x y)
  | or, x, y => some (Int.lor x y)
  | xor, x, y => some (Int.xor x y)
  | shiftLeft, x, y => if y < 0 then none else some (x * 2 ^ y.toNat)
  | shiftRight, x, y => if y < 0 then none else some (x / 2 ^ y.toNat)
  | unknown _, _, _ => none

/-- Whether an operation works on residues modulo powers of two. -/
def isModular : BinaryOp → Bool
  | add | sub | mul | and | or | xor => true
  | div | mod | shiftLeft | shiftRight | unknown _ => false

variable {op : BinaryOp} {width : Width} {x y result : Int}

/-- An operation on residues always has a result, and congruent operands give congruent ones. -/
theorem exists_of_isModular (hop : op.isModular = true) (width : Width) {k : Nat} {x' y' : Int}
    (hx : x ≡ x' [ZMOD 2 ^ k]) (hy : y ≡ y' [ZMOD 2 ^ k]) :
    ∃ result integer, op.apply width x y = .ok result ∧ op.exactResult? x' y' = some integer ∧
      result ≡ integer [ZMOD 2 ^ k] := by
  -- these operations are compatible with residues, so they may be done before or after wrapping
  cases op with
  | add => exact ⟨_, _, rfl, rfl, hx.add hy⟩
  | sub => exact ⟨_, _, rfl, rfl, hx.sub hy⟩
  | mul => exact ⟨_, _, rfl, rfl, hx.mul hy⟩
  | and =>
      refine ⟨_, _, rfl, rfl, ?_⟩
      rw [Bitwise.conj_eq_bitwise, ← Int.bitwise_and]
      exact Bitwise.modEq_bitwise _ hx hy
  | or =>
      refine ⟨_, _, rfl, rfl, ?_⟩
      rw [Bitwise.disj_eq_bitwise, ← Int.bitwise_or]
      exact Bitwise.modEq_bitwise _ hx hy
  | xor =>
      refine ⟨_, _, rfl, rfl, ?_⟩
      rw [Bitwise.exclusive_eq_bitwise, ← Int.bitwise_xor]
      exact Bitwise.modEq_bitwise _ hx hy
  | div | mod | shiftLeft | shiftRight | unknown _ => cases hop

/-- A left shift that is carried out up to the width only has the exact result, if that fits. -/
theorem shiftUp_min_eq_iff (hfits : width.Fits result) (count : Nat) :
    Bitwise.shiftUp x (min count width.bits) = result ↔ x * 2 ^ count = result := by
  rcases le_total count width.bits with hle | hle
  · rw [min_eq_left hle, Bitwise.shiftUp_eq]
  · rw [min_eq_right hle, ← Bitwise.shiftUp_eq]
    constructor
    · rintro rfl
      obtain rfl := Width.eq_zero_of_fits_shiftUp le_rfl hfits
      simp only [Bitwise.shiftUp, zero_mul]
    · rintro rfl
      obtain rfl := Width.eq_zero_of_fits_shiftUp hle hfits
      simp only [Bitwise.shiftUp, zero_mul]

/-- The results that fit into a cell are the exact ones. -/
theorem apply_eq_ok_iff_exact (hfits : width.Fits result) :
    op.apply width x y = .ok result ↔ op.exactResult? x y = some result := by
  cases op with
  | add | sub | mul => simp only [apply, exactResult?, Except.ok.injEq, Option.some.injEq]
  | and =>
      rw [apply, exactResult?, Bitwise.conj_eq_bitwise, Int.bitwise_and, Except.ok.injEq,
        Option.some.injEq]
  | or =>
      rw [apply, exactResult?, Bitwise.disj_eq_bitwise, Int.bitwise_or, Except.ok.injEq,
        Option.some.injEq]
  | xor =>
      rw [apply, exactResult?, Bitwise.exclusive_eq_bitwise, Int.bitwise_xor, Except.ok.injEq,
        Option.some.injEq]
  | div | mod =>
      rw [apply, exactResult?]
      by_cases hzero : y = 0
      · simp only [if_pos hzero, reduceCtorEq]
      · simp only [if_neg hzero, Except.ok.injEq, Option.some.injEq]
  -- the count is cut off at the width, but a result that fits has not been moved so far
  | shiftLeft =>
      rw [apply, exactResult?]
      by_cases hneg : y < 0
      · simp only [if_pos hneg, reduceCtorEq]
      · simp only [if_neg hneg, Except.ok.injEq, Option.some.injEq]
        exact shiftUp_min_eq_iff hfits y.toNat
  | shiftRight =>
      rw [apply, exactResult?]
      by_cases hneg : y < 0
      · simp only [if_pos hneg, reduceCtorEq]
      · simp only [if_neg hneg, Except.ok.injEq, Option.some.injEq, Bitwise.shiftDown_eq]
  | unknown _ => simp only [apply, exactResult?, reduceCtorEq]

end BinaryOp

/-! ## Expressions -/

namespace Expr

/-- The value of an expression in the integers, where `here` is the value of `$`. -/
def exactValue? (env : Environment) (here : Int) : Expr → Option Int
  | .num value _ => some value
  | .sym name _ => env name
  | .here _ => some here
  | .un op operand _ => (operand.exactValue? env here).map op.exactResult
  | .bin op left right =>
      (left.exactValue? env here).bind fun x =>
        (right.exactValue? env here).bind fun y => op.exactResult? x y

/-- Whether all operations of an expression work on residues. -/
def isModular : Expr → Bool
  | .num _ _ | .sym _ _ | .here _ => true
  | .un _ operand _ => operand.isModular
  | .bin op left right => op.isModular && left.isModular && right.isModular

/-- An expression and all that it is composed of. -/
def subtrees : Expr → List Expr
  | .num value location => [.num value location]
  | .sym name location => [.sym name location]
  | .here location => [.here location]
  | .un op operand location => .un op operand location :: operand.subtrees
  | .bin op left right => .bin op left right :: (left.subtrees ++ right.subtrees)

/-- An expression is one of its own parts. -/
theorem self_mem_subtrees (e : Expr) : e ∈ e.subtrees := by
  cases e <;> simp [subtrees]

variable {env : Environment} {position : Int}

/-- The exact value of an operation is that of the exact values of its operands. -/
theorem exactValue?_bin_eq_some {op : BinaryOp} {left right : Expr} {value : Int} :
    (bin op left right).exactValue? env position = some value ↔
      ∃ x y, left.exactValue? env position = some x ∧ right.exactValue? env position = some y ∧
        op.exactResult? x y = some value := by
  simp only [exactValue?, Option.bind_eq_some_iff]
  constructor
  · rintro ⟨x, hx, y, hy, hop⟩
    exact ⟨x, y, hx, hy, hop⟩
  · rintro ⟨x, y, hx, hy, hop⟩
    exact ⟨x, hx, y, hy, hop⟩

/-! ## What it means to have a value -/

variable {arith : Arithmetic} {bindings : Bindings} {here : Option Int} {value : Int}

/-- The value of an expression, as a fold in which names are looked up. -/
theorem value_eq_ok {e : Expr} :
    e.value arith bindings here = .ok value ↔
      Yields (e.fold arith (fun name location => liftM (lookup bindings name location)) here) ()
        value () :=
  ⟨fun h => Prod.ext h rfl, fun h => congrArg Prod.fst h⟩

/-- A name has the value that it is bound to. -/
theorem lookup_eq_ok {name : String} {location : Option Location} :
    lookup bindings name location = .ok value ↔ OrderedMap.get? bindings name = some value := by
  unfold lookup
  cases OrderedMap.get? bindings name with
  | none => simp only [reduceCtorEq]
  | some x => simp only [Except.ok.injEq, Option.some.injEq]

/-- The value of a number is the number brought into a cell. -/
theorem value_num_eq_ok {x : Int} {location : Option Location} :
    (num x location).value arith bindings here = .ok value ↔
      arith.toCell x location = .ok value := by
  rw [value_eq_ok, fold, yields_liftM, and_iff_left rfl]

/-- The value of a name is what it is bound to. -/
theorem value_sym_eq_ok {name : String} {location : Option Location} :
    (sym name location).value arith bindings here = .ok value ↔
      OrderedMap.get? bindings name = some value := by
  rw [value_eq_ok, fold, yields_liftM, and_iff_left rfl, lookup_eq_ok]

/-- The value of `$` is the position. -/
theorem value_here_eq_ok {location : Option Location} :
    (Expr.here location).value arith bindings (some position) = .ok value ↔ position = value := by
  rw [value_eq_ok, fold, yields_pure, and_iff_left rfl]

/-- An operation has no value unless its operand has one. -/
theorem exists_value_of_un {op : UnaryOp} {operand : Expr} {location : Option Location}
    (h : (un op operand location).value arith bindings here = .ok value) :
    ∃ x, operand.value arith bindings here = .ok x := by
  simp only [value_eq_ok, fold, yields_bind] at h ⊢
  obtain ⟨x, _, hx, -⟩ := h
  exact ⟨x, hx⟩

/-- What a unary plus stands before is not brought into a cell again, which makes no difference to
what fits into one. -/
theorem value_un_eq_ok {op : UnaryOp} {operand : Expr} {location : Option Location} {x : Int}
    (hx : operand.value arith bindings here = .ok x) (hfits : arith.width.Fits x) :
    (un op operand location).value arith bindings here = .ok value ↔
      arith.toCell (op.apply x) location = .ok value := by
  rw [value_eq_ok] at hx ⊢
  -- two of the operators give back their operand, which fits already
  have hkeep : arith.toCell x location = .ok value ↔ x = value := by
    rw [Arithmetic.toCell_of_fits hfits, Except.ok.injEq]
  rw [fold, yields_bind]
  constructor
  · rintro ⟨x', _, hx', hop⟩
    obtain ⟨rfl, -⟩ := hx.unique hx'
    cases op with
    | minus | complement => exact (yields_liftM.mp hop).1
    | plus | inert _ => exact hkeep.mpr (yields_pure.mp hop).1
  · intro hcell
    refine ⟨x, (), hx, ?_⟩
    cases op with
    | minus | complement => exact yields_liftM.mpr ⟨hcell, rfl⟩
    | plus | inert _ => exact yields_pure.mpr ⟨hkeep.mp hcell, rfl⟩

/-- The value of a binary operation is brought into a cell after the operator has been applied. -/
theorem value_bin_eq_ok {op : BinaryOp} {left right : Expr} :
    (bin op left right).value arith bindings here = .ok value ↔
      ∃ x y result, left.value arith bindings here = .ok x ∧
        right.value arith bindings here = .ok y ∧ op.apply arith.width x y = .ok result ∧
        arith.toCell result left.location = .ok value := by
  simp only [value_eq_ok, fold, yields_bind]
  constructor
  · rintro ⟨x, _, hx, y, _, hy, hop⟩
    split at hop
    · next result hresult => exact ⟨x, y, result, hx, hy, hresult, (yields_liftM.mp hop).1⟩
    · exact absurd hop yields_throw
  · rintro ⟨x, y, result, hx, hy, hresult, hcell⟩
    refine ⟨x, (), hx, y, (), hy, ?_⟩
    rw [hresult]
    exact yields_liftM.mpr ⟨hcell, rfl⟩

/-! ## Wrapping -/

/-- All names have values that fit into a cell. -/
def Bindings.Fit (width : Width) (bindings : Bindings) : Prop :=
  ∀ name value, OrderedMap.get? bindings name = some value → width.Fits value

/-- Values that fit one by one fit together. -/
theorem Bindings.fit_of_forall_mem {width : Width} {bindings : Bindings}
    (h : ∀ pair ∈ bindings, width.Fits pair.2) : bindings.Fit width :=
  fun _ _ hget => h _ (OrderedMap.mem_of_get? hget)

variable {width : Width}

/-- Intermediate results are only known up to multiples of `2 ^ bits`, and that is enough. -/
theorem exists_exact_of_isModular (e : Expr) (hmodular : e.isModular = true)
    (hnames : ∀ name ∈ e.mentions, ∃ value, OrderedMap.get? bindings name = some value)
    (hbindings : bindings.Fit width) (hposition : width.Fits position) :
    ∃ integer, e.exactValue? (OrderedMap.get? bindings) position = some integer ∧
      e.value ⟨width, false⟩ bindings (some position) = .ok (width.wrap integer) := by
  -- by induction on the expression; the value is the exact one up to a multiple of `2 ^ bits`
  induction e with
  | num x location => exact ⟨x, rfl, value_num_eq_ok.mpr (Arithmetic.toCell_of_not_strict rfl)⟩
  | sym name location =>
      obtain ⟨x, hx⟩ := hnames name (List.mem_singleton_self name)
      refine ⟨x, hx, value_sym_eq_ok.mpr ?_⟩
      rw [hx, Width.wrap_of_fits (hbindings name x hx)]
  | here location =>
      exact ⟨position, rfl, value_here_eq_ok.mpr (Width.wrap_of_fits hposition).symm⟩
  | un op operand location ih =>
      obtain ⟨x, hexact, hvalue⟩ := ih hmodular hnames
      refine ⟨op.exactResult x, by rw [exactValue?, hexact, Option.map_some], ?_⟩
      refine (value_un_eq_ok hvalue (width.fits_wrap x)).mpr ?_
      rw [Arithmetic.toCell_of_not_strict rfl, ← op.apply_eq_exactResult]
      exact congrArg Except.ok (Width.wrap_eq_wrap_iff.mpr (op.apply_modEq (Width.wrap_modEq x)))
  | bin op left right ihl ihr =>
      obtain ⟨⟨hop, hleft⟩, hright⟩ : (op.isModular = true ∧ left.isModular = true) ∧
          right.isModular = true := by
        rw [isModular, Bool.and_eq_true, Bool.and_eq_true] at hmodular
        exact hmodular
      obtain ⟨x, hx, hxvalue⟩ :=
        ihl hleft fun name hmem => hnames name (List.mem_append_left _ hmem)
      obtain ⟨y, hy, hyvalue⟩ :=
        ihr hright fun name hmem => hnames name (List.mem_append_right _ hmem)
      -- the operands are known up to residues only, which is all that the operator needs
      obtain ⟨result, integer, hresult, hexact, hmod⟩ :=
        BinaryOp.exists_of_isModular hop width (Width.wrap_modEq x) (Width.wrap_modEq y)
      refine ⟨integer, exactValue?_bin_eq_some.mpr ⟨x, y, hx, hy, hexact⟩,
        value_bin_eq_ok.mpr ⟨_, _, result, hxvalue, hyvalue, hresult, ?_⟩⟩
      rw [Arithmetic.toCell_of_not_strict rfl]
      exact congrArg Except.ok (Width.wrap_eq_wrap_iff.mpr hmod)

end Expr

/-- A value that is written into a cell of a machine is read back wrapped. -/
theorem Machine.exists_read_of_write {machine : Machine} {address : Int} (value : Int)
    (h : machine.state.InMemory address) :
    ∃ written, machine.write address value = .ok written ∧
      written.read address = .ok (machine.width.wrap value) := by
  let stored := machine.state.store address (machine.width.wrap value)
  have hmem : stored.InMemory address := by
    rw [State.InMemory, State.size_store]
    exact h
  have hcell : stored.cell address = machine.width.wrap value := by
    rw [State.cell_store h, if_pos rfl]
  exact ⟨_, if_pos h, (if_pos hmem).trans (congrArg Except.ok hcell)⟩

/-- The cells of a program are loaded wrapped. -/
theorem Machine.getElem?_loadCells {cells : List Int} {index : Nat} {value : Int} (width : Width)
    (size : Nat) (h : cells[index]? = some value) :
    (loadCells width cells size)[index]? = some (width.wrap value) := by
  have hlt := (List.getElem?_eq_some_iff.mp h).1
  rw [loadCells, List.getElem?_toArray, List.getElem?_append_left (by rwa [List.length_map]),
    List.getElem?_map, h, Option.map_some]

namespace Expr

variable {bindings : Bindings} {position : Int} {width : Width}

/-- The value of an expression over operations on residues is its exact value, wrapped once.
Wrapping finds the one congruent value in range.  It is what assembly does with numbers, and what a
machine does with the cells that it loads, with the values that are written to it, and with the
results of its instructions. -/
theorem value_eq_wrap_exact {e : Expr} (hmodular : e.isModular = true)
    (hnames : ∀ name ∈ e.mentions, ∃ value, OrderedMap.get? bindings name = some value)
    (hbindings : bindings.Fit width) (hposition : width.Fits position) :
    (∃ integer, e.exactValue? (OrderedMap.get? bindings) position = some integer ∧
      e.value ⟨width, false⟩ bindings (some position) = .ok (width.wrap integer)) ∧
    (∀ x value, value = width.wrap x ↔ value ≡ x [ZMOD 2 ^ width.bits] ∧
      -(2 ^ (width.bits - 1)) ≤ value ∧ value ≤ 2 ^ (width.bits - 1) - 1) ∧
    (∀ x location, Arithmetic.toCell ⟨width, false⟩ x location = .ok (width.wrap x)) ∧
    (∀ (cells : List Int) (size index : Nat) (x : Int), cells[index]? = some x →
      (Machine.loadCells width cells size)[index]? = some (width.wrap x)) ∧
    (∀ (machine : Machine) address x, machine.width = width → machine.state.InMemory address →
      ∃ written, machine.write address x = .ok written ∧
        written.read address = .ok (width.wrap x)) ∧
    (∀ s : Machine.State, s.obstacle? = none →
      (s.execute width).cell (s.cell (s.pc + 1)) =
        width.wrap (s.cell (s.cell (s.pc + 1)) - s.cell (s.cell s.pc))) := by
  refine ⟨e.exists_exact_of_isModular hmodular hnames hbindings hposition, fun x value => ?_,
    fun x location => Arithmetic.toCell_of_not_strict rfl,
    fun cells size index x => Machine.getElem?_loadCells width size, ?_, fun s hs => ?_⟩
  · rw [Width.eq_wrap_iff, Width.Fits, Width.min_eq, Width.max_eq]
  · rintro machine address x rfl hmem
    exact Machine.exists_read_of_write x hmem
  · rw [(Machine.State.executable_of_obstacle? hs).cell_execute, if_pos rfl]

/-- Cells for the numbers from -8 to 7. -/
def nibble : Width := ⟨4, by decide⟩

/-- Values at both ends of the range. -/
def extremes : Bindings := [("low", -8), ("high", 7)]

/-- The expression `(high * 7 + ~$) ^ (low & -9)`, most of whose subtrees are out of
range. -/
def overflowing : Expr :=
  .bin .xor
    (.bin .add (.bin .mul (.sym "high" none) (.num 7 none)) (.un .complement (.here none) none))
    (.bin .and (.sym "low" none) (.un .minus (.num 9 none) none))

/-- The bound values fit into cells of four bits. -/
theorem fit_extremes : extremes.Fit nibble := Bindings.fit_of_forall_mem (by decide)

theorem value_eq_wrap_exact_overflowing :
    overflowing.exactValue? (OrderedMap.get? extremes) 3 = some (-35) ∧
      overflowing.value ⟨nibble, false⟩ extremes (some 3) = .ok (nibble.wrap (-35)) ∧
      nibble.wrap (-35) = -3 := by
  have hnames : ∀ name ∈ overflowing.mentions, ∃ value,
      OrderedMap.get? extremes name = some value := by
    intro name hmem
    exact Option.isSome_iff_exists.mp
      ((by decide : ∀ name ∈ overflowing.mentions, (OrderedMap.get? extremes name).isSome = true)
        name hmem)
  obtain ⟨⟨integer, hexact, hvalue⟩, -⟩ :=
    value_eq_wrap_exact (by decide) hnames fit_extremes (by decide : nibble.Fits 3)
  have h35 : overflowing.exactValue? (OrderedMap.get? extremes) 3 = some (-35) := by decide
  obtain rfl : integer = -35 := Option.some.inj (hexact.symm.trans h35)
  exact ⟨h35, hvalue, by decide⟩

/-! ## Strictness -/

variable {env : Environment}

/-- The exact values of an expression and of all its parts fit into a cell. -/
def InRange (width : Width) (env : Environment) (position : Int) (e : Expr) : Prop :=
  ∀ sub ∈ e.subtrees, ∃ x, sub.exactValue? env position = some x ∧ width.Fits x

/-- What is in range has an exact value that fits. -/
theorem InRange.exists_exact {e : Expr} (h : e.InRange width env position) :
    ∃ x, e.exactValue? env position = some x ∧ width.Fits x := h e e.self_mem_subtrees

/-- The exact value of what is in range fits. -/
theorem InRange.fits {e : Expr} (h : e.InRange width env position) {value : Int}
    (hexact : e.exactValue? env position = some value) : width.Fits value := by
  obtain ⟨x, hx, hfits⟩ := h.exists_exact
  rw [hexact] at hx
  exact Option.some.inj hx ▸ hfits

/-- A unary operation is in range if its value and its operand are. -/
theorem inRange_un_iff {op : UnaryOp} {operand : Expr} {location : Option Location} :
    (un op operand location).InRange width env position ↔
      (∃ x, (un op operand location).exactValue? env position = some x ∧ width.Fits x) ∧
        operand.InRange width env position :=
  List.forall_mem_cons

/-- A binary operation is in range if its value and its operands are. -/
theorem inRange_bin_iff {op : BinaryOp} {left right : Expr} :
    (bin op left right).InRange width env position ↔
      (∃ x, (bin op left right).exactValue? env position = some x ∧ width.Fits x) ∧
        left.InRange width env position ∧ right.InRange width env position := by
  simp only [InRange, subtrees, List.forall_mem_cons, List.forall_mem_append]

/-- Exact values that are in range are those of arithmetic, strict or not. -/
theorem value_of_inRange {arith : Arithmetic} (e : Expr) {value : Int}
    (h : e.InRange arith.width (OrderedMap.get? bindings) position)
    (hexact : e.exactValue? (OrderedMap.get? bindings) position = some value) :
    e.value arith bindings (some position) = .ok value := by
  have hfits := h.fits hexact
  -- by induction on the expression; nothing inside of it leaves the range, so nothing is wrapped
  induction e generalizing value with
  | num x location =>
      obtain rfl := Option.some.inj hexact
      exact value_num_eq_ok.mpr (Arithmetic.toCell_of_fits hfits)
  | sym name location => exact value_sym_eq_ok.mpr hexact
  | here location => exact value_here_eq_ok.mpr (Option.some.inj hexact)
  | un op operand location ih =>
      obtain ⟨-, hoperand⟩ := inRange_un_iff.mp h
      obtain ⟨x, hx, rfl⟩ := Option.map_eq_some_iff.mp hexact
      have hxfits := hoperand.fits hx
      rw [value_un_eq_ok (ih hoperand hx hxfits) hxfits, op.apply_eq_exactResult]
      exact Arithmetic.toCell_of_fits hfits
  | bin op left right ihl ihr =>
      obtain ⟨-, hleft, hright⟩ := inRange_bin_iff.mp h
      obtain ⟨x, y, hx, hy, hop⟩ := exactValue?_bin_eq_some.mp hexact
      exact value_bin_eq_ok.mpr ⟨x, y, value, ihl hleft hx (hleft.fits hx),
        ihr hright hy (hright.fits hy), (BinaryOp.apply_eq_ok_iff_exact hfits).mpr hop,
        Arithmetic.toCell_of_fits hfits⟩

/-- Strict arithmetic checks every subtree, and so goes through exact values only. -/
theorem inRange_of_value (e : Expr) {value : Int} (hbindings : bindings.Fit width)
    (hposition : width.Fits position)
    (h : e.value ⟨width, true⟩ bindings (some position) = .ok value) :
    e.exactValue? (OrderedMap.get? bindings) position = some value ∧
      e.InRange width (OrderedMap.get? bindings) position := by
  -- strict arithmetic refuses what does not fit, so every intermediate result has fitted
  induction e generalizing value with
  | num x location =>
      obtain ⟨hfits, rfl⟩ := (Arithmetic.toCell_eq_ok_of_strict rfl).mp (value_num_eq_ok.mp h)
      exact ⟨rfl, List.forall_mem_singleton.mpr ⟨x, rfl, hfits⟩⟩
  | sym name location =>
      have hvalue := value_sym_eq_ok.mp h
      exact ⟨hvalue, List.forall_mem_singleton.mpr ⟨value, hvalue, hbindings name value hvalue⟩⟩
  | here location =>
      obtain rfl := value_here_eq_ok.mp h
      exact ⟨rfl, List.forall_mem_singleton.mpr ⟨position, rfl, hposition⟩⟩
  | un op operand location ih =>
      obtain ⟨x, hvalue⟩ := exists_value_of_un h
      obtain ⟨hx, hoperand⟩ := ih hvalue
      obtain ⟨hfits, rfl⟩ := (Arithmetic.toCell_eq_ok_of_strict rfl).mp
        ((value_un_eq_ok hvalue (hoperand.fits hx)).mp h)
      rw [op.apply_eq_exactResult] at hfits ⊢
      have hexact : (un op operand location).exactValue? (OrderedMap.get? bindings) position =
          some (op.exactResult x) := Option.map_eq_some_iff.mpr ⟨x, hx, rfl⟩
      exact ⟨hexact, inRange_un_iff.mpr ⟨⟨_, hexact, hfits⟩, hoperand⟩⟩
  | bin op left right ihl ihr =>
      obtain ⟨x, y, result, hxvalue, hyvalue, hop, hcell⟩ := value_bin_eq_ok.mp h
      obtain ⟨hx, hleft⟩ := ihl hxvalue
      obtain ⟨hy, hright⟩ := ihr hyvalue
      obtain ⟨hfits, rfl⟩ := (Arithmetic.toCell_eq_ok_of_strict rfl).mp hcell
      have hexact := exactValue?_bin_eq_some.mpr
        ⟨x, y, hx, hy, (BinaryOp.apply_eq_ok_iff_exact hfits).mp hop⟩
      exact ⟨hexact, inRange_bin_iff.mpr ⟨⟨result, hexact, hfits⟩, hleft, hright⟩⟩

/-- Strict arithmetic gives a value just if there is an exact one and the exact values of all
subtrees are in range.  It is the exact value then, and the one with wrapping. -/
theorem strict_value_iff_exact {e : Expr} {value : Int} (hbindings : bindings.Fit width)
    (hposition : width.Fits position) :
    (e.value ⟨width, true⟩ bindings (some position) = .ok value ↔
      e.exactValue? (OrderedMap.get? bindings) position = some value ∧
        e.InRange width (OrderedMap.get? bindings) position) ∧
    (e.value ⟨width, true⟩ bindings (some position) = .ok value →
      e.value ⟨width, false⟩ bindings (some position) = .ok value) := by
  refine ⟨⟨e.inRange_of_value hbindings hposition, fun h => e.value_of_inRange h.2 h.1⟩, ?_⟩
  intro h
  obtain ⟨hexact, hrange⟩ := e.inRange_of_value hbindings hposition h
  exact e.value_of_inRange hrange hexact

/-- The expression `(1 << 2) - (low >> 7)`. -/
def shifted : Expr :=
  .bin .sub (.bin .shiftLeft (.num 1 none) (.num 2 none))
    (.bin .shiftRight (.sym "low" none) (.num 7 none))

/-- The expression `high + 1 - 1`, whose value is in range while that of its left operand is not. -/
def detour : Expr := .bin .sub (.bin .add (.sym "high" none) (.num 1 none)) (.num 1 none)

theorem strict_value_iff_exact_nibble :
    (shifted.exactValue? (OrderedMap.get? extremes) 0 = some 5 ∧
      shifted.InRange nibble (OrderedMap.get? extremes) 0 ∧
      shifted.value ⟨nibble, false⟩ extremes (some 0) = .ok 5) ∧
    detour.exactValue? (OrderedMap.get? extremes) 0 = some 7 ∧
      detour.value ⟨nibble, true⟩ extremes (some 0) ≠ .ok 7 := by
  have hvalue : shifted.value ⟨nibble, true⟩ extremes (some 0) = .ok 5 :=
    eq_ok_of_toOption (by decide)
  have hwrapped := (strict_value_iff_exact fit_extremes Width.fits_zero).2 hvalue
  obtain ⟨hexact, hrange⟩ := (strict_value_iff_exact fit_extremes Width.fits_zero).1.mp hvalue
  refine ⟨⟨hexact, hrange, hwrapped⟩, by decide, fun hdetour => ?_⟩
  obtain ⟨-, hrange⟩ := (strict_value_iff_exact fit_extremes Width.fits_zero).1.mp hdetour
  obtain ⟨x, hx, hfits⟩ := (inRange_bin_iff.mp hrange).2.1.exists_exact
  obtain rfl : 8 = x := Option.some.inj hx
  exact absurd hfits (by decide)

end Expr

end Subleq
