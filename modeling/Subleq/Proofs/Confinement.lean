import Subleq.Proofs.Digits
import Subleq.Proofs.Expansion

/-!
# Which faults can come up

`Folding.Confined` says of a computation that it ends with a condition on its result and its last
state, or in one of the faults that are allowed.  The stages of assembly that come after the names
have been checked are confined in the same way whatever is allowed, as long as that includes the
faults that have nothing to do with names (`Fault.AllowsOthers`): the second pass computes with
names only where it evaluates the expressions of its items, and the storage gets its places without
any expression.

Among these faults is the one of a number that cannot be written.  It does not come up if the
numbers of the program are short, which is a parameter here, `Short`: whatever it says, it has to
imply what `SymbolTable.Discipline` asks for in this case.

`SymbolTable.Discipline` is what is asked of the expressions and of the tables on the way, and
`Item.confined_contents` and `Layout.confined_placeStorage` are what follows for the two stages.
-/

namespace Subleq

/-- Whether a reason lies in a name that nothing defines, or whose definition leads back to it. -/
def Cause.concernsNames : Cause → Bool
  | circularDefinition _ => true
  | cause => cause.category == .undefinedSymbol

namespace Fault

variable {α : Type} {Short : Prop} {Allowed : Fault → Prop}

/-- Whether a fault is that of a program, for a reason that lies in a name. -/
def concernsNames : Fault → Bool
  | source diagnostic => diagnostic.cause.concernsNames
  | excess _ | narrowCell _ | noPoolSlot _ | noDefinition _ => false

/-- What is worded is the diagnostic itself. -/
theorem eq_of_ofDiagnostic {d d' : Diagnostic} (h : ofDiagnostic d = .source d') : d = d' := by
  unfold ofDiagnostic at h
  split at h
  · exact Fault.source.inj h
  · cases h

/-- There is a result, or one of the given faults. -/
def Within (Allowed : Fault → Prop) (result : Except Fault α) : Prop :=
  ∀ fault, result = .error fault → Allowed fault

/-- A result is within any bounds. -/
theorem within_ok (a : α) : Within Allowed (.ok a) := by
  intro fault h
  cases h

theorem within_error {fault : Fault} (h : Allowed fault) :
    Within Allowed (.error fault : Except Fault α) := by
  intro fault' h'
  rw [← Except.error.inj h']
  exact h

/-- The reasons that do not lie in a name are all allowed, and so is a number that cannot be
written, unless the numbers are short. -/
structure AllowsOthers (Short : Prop) (Allowed : Fault → Prop) : Prop where
  source : ∀ cause location, cause.concernsNames = false → cause.isWritable = true →
    Allowed (.source (.found cause location))
  excess : ¬ Short → Allowed (.excess .unwritten)

namespace AllowsOthers

variable (h : AllowsOthers Short Allowed)

include h

/-- A reason is worded or in excess. -/
theorem found {cause : Cause} (hnames : cause.concernsNames = false)
    (hshort : Short → cause.isWritable = true) (location : Option Location) :
    Allowed (.found cause location) := by
  unfold Fault.found ofDiagnostic
  split
  · next hwritable => exact h.source cause location hnames hwritable
  · next hwritable => exact h.excess fun hs => hwritable (hshort hs)

/-- Only a strict arithmetic refuses values, and it quotes them. -/
theorem within_toCell (arith : Arithmetic) {value : Int} (location : Option Location)
    (hbits : Short → Digits.isWritable arith.width.bits = true)
    (hvalue : Short → Digits.isWritable value = true) :
    Within Allowed (arith.toCell value location) := by
  unfold Arithmetic.toCell
  split
  · exact within_ok _
  · split
    · refine within_error (h.found rfl (fun hs => ?_) location)
      exact Bool.and_eq_true_iff.mpr ⟨hvalue hs, hbits hs⟩
    · exact within_ok _

/-- Bytes are brought into cells within the bounds. -/
theorem within_mapM_toCell (arith : Arithmetic) (location : Option Location) {bytes : List Nat}
    (hbits : Short → Digits.isWritable arith.width.bits = true)
    (hbytes : ∀ byte ∈ bytes, Digits.isWritable byte = true) :
    Within Allowed (bytes.mapM fun (byte : Nat) => arith.toCell byte location) := by
  intro fault hfault
  induction bytes with
  | nil => cases hfault
  | cons byte rest ih =>
      rw [List.forall_mem_cons] at hbytes
      rw [List.mapM_cons] at hfault
      -- the list fails where its first byte does, or where the rest does
      cases hfirst : arith.toCell byte location with
      | error fault' =>
          rw [hfirst] at hfault
          obtain rfl := Except.error.inj hfault
          exact h.within_toCell arith location hbits (fun _ => hbytes.1) _ hfirst
      | ok first =>
          rw [hfirst] at hfault
          cases hrest : rest.mapM fun (byte : Nat) => arith.toCell byte location with
          | error fault' =>
              rw [hrest] at hfault
              exact ih hbytes.2 (hrest.trans hfault)
          | ok others =>
              rw [hrest] at hfault
              cases hfault

/-- So is a definition: a duplicate is an allowed fault. -/
theorem within_define (table : SymbolTable) (symbol : Symbol) :
    Within Allowed (table.define symbol) := by
  unfold SymbolTable.define
  split
  · exact within_error (h.found rfl (fun _ => rfl) _)
  · exact within_ok _

/-- So is the definition of a literal whose name can be written. -/
theorem within_defineLiteral (table : SymbolTable) {value : Int}
    (hvalue : Short → Digits.isWritable value = true) :
    Within Allowed (table.defineLiteral value) := by
  unfold SymbolTable.defineLiteral
  split
  · exact h.within_define table _
  · next hwritable => exact within_error (h.excess fun hs => hwritable (hvalue hs))

/-- So is the check of a size. -/
theorem within_checkSize {limit size : Int} (hlimit : Short → Digits.isWritable limit = true)
    (hsize : Short → Digits.isWritable size = true) :
    Within Allowed (Layout.checkSize limit size) := by
  unfold Layout.checkSize
  split
  · refine within_error (h.found rfl (fun hs => ?_) _)
    exact Bool.and_eq_true_iff.mpr ⟨hsize hs, hlimit hs⟩
  · exact within_ok _

/-- An operand is quoted where it is refused. -/
theorem refusal {operand : Operand} {cause : Cause} (hnames : cause.concernsNames = false)
    (hcause : cause.isWritable = true) (hoperand : Short → operand.isWritable = true) :
    Allowed (operand.refusal cause) := by
  unfold Operand.refusal
  split
  · exact h.found hnames (fun _ => hcause) _
  · next hwritable => exact h.excess fun hs => hwritable (hoperand hs)

end AllowsOthers

end Fault

/-- An operation that has no result has none for the sake of its operands. -/
theorem BinaryOp.concernsNames_apply {op : BinaryOp} {width : Width} {x y : Int} {cause : Cause}
    (h : op.apply width x y = .error cause) : cause.concernsNames = false := by
  cases op with
  | add | sub | mul | and | or | xor => cases h
  | div | mod | shiftLeft | shiftRight =>
      rw [apply] at h
      split at h
      · obtain rfl := Except.error.inj h
        rfl
      · cases h
  | unknown text =>
      obtain rfl := Except.error.inj h
      rfl

/-! ## Computations -/

namespace Folding

open Fault

variable {σ α β : Type} {Allowed : Fault → Prop} {Post : α → σ → Prop} {Post' : β → σ → Prop}
  {s s' : σ}

/-- From a state on, the computation ends with the condition or in a fault that is allowed. -/
def Confined (Allowed : Fault → Prop) (Post : α → σ → Prop) (m : Folding σ α) (s : σ) : Prop :=
  match m.run s with
  | (.ok a, s') => Post a s'
  | (.error fault, _) => Allowed fault

namespace Confined

/-- A value that has what is asked for is confined. -/
theorem ret {a : α} (ha : Post a s) : Confined Allowed Post (pure a) s := ha

theorem fail {fault : Fault} (h : Allowed fault) :
    Confined Allowed Post (throw fault : Folding σ α) s := h

/-- The second part of a computation knows what the first one gave. -/
theorem seq {m : Folding σ α} {f : α → Folding σ β} (hm : Confined Allowed Post m s)
    (hf : ∀ a s', Yields m s a s' → Post a s' → Confined Allowed Post' (f a) s') :
    Confined Allowed Post' (m >>= f) s := by
  unfold Confined at hm ⊢
  rw [run_bind]
  rcases hrun : m.run s with ⟨fault | a, s'⟩
  · rw [hrun] at hm
    exact hm
  · rw [hrun] at hm
    exact hf a s' hrun hm

/-- Steps that are confined each are confined together. -/
theorem bind {m : Folding σ α} {f : α → Folding σ β} (hm : Confined Allowed Post m s)
    (hf : ∀ a s', Post a s' → Confined Allowed Post' (f a) s') :
    Confined Allowed Post' (m >>= f) s :=
  hm.seq fun a s' _ => hf a s'

/-- A part that is known to succeed is behind us. -/
theorem after {m : Folding σ α} {f : α → Folding σ β} {a : α} (hm : Yields m s a s')
    (hf : Confined Allowed Post' (f a) s') : Confined Allowed Post' (m >>= f) s := by
  unfold Confined at hf ⊢
  rwa [run_bind, show m.run s = (.ok a, s') from hm]

/-- What is read first is the state itself. -/
theorem read {f : σ → Folding σ β} (hf : Confined Allowed Post' (f s) s) :
    Confined Allowed Post' (get >>= f) s := hf

/-- What is stored is the state of what follows. -/
theorem store {t : σ} {f : PUnit → Folding σ β} (hf : Confined Allowed Post' (f ⟨⟩) t) :
    Confined Allowed Post' (set t >>= f) s := hf

/-- A change of state is confined by what comes after it. -/
theorem change {g : σ → σ} {f : PUnit → Folding σ β} (hf : Confined Allowed Post' (f ⟨⟩) (g s)) :
    Confined Allowed Post' (modify g >>= f) s := hf

/-- A check is confined if its faults are. -/
theorem lift {x : Except Fault α} (hok : ∀ a, x = .ok a → Post a s) (hx : Within Allowed x) :
    Confined Allowed Post (liftM x : Folding σ α) s := by
  cases x with
  | error fault => exact hx fault rfl
  | ok a => exact hok a rfl

/-- What follows a result without a state knows the result. -/
theorem given {x : Except Fault α} {f : α → Folding σ β} (hx : Within Allowed x)
    (hf : ∀ a, x = .ok a → Confined Allowed Post' (f a) s) :
    Confined Allowed Post' (liftM x >>= f) s := by
  cases x with
  | error fault => exact hx fault rfl
  | ok a => exact hf a rfl

/-- An update is confined if its faults are. -/
theorem update {change : σ → Except Fault σ} {Post : Unit → σ → Prop}
    (hok : ∀ s', change s = .ok s' → Post () s') (herror : Within Allowed (change s)) :
    Confined Allowed Post (update change) s := by
  apply Confined.read
  cases hchange : change s with
  | ok s' => exact hok s' hchange
  | error fault => exact herror fault hchange

/-- What yields a result is confined whatever else would be allowed. -/
theorem of_run {m : Folding σ α} {a : α} (hyields : Yields m s a s') (ha : Post a s') :
    Confined Allowed Post m s := by
  unfold Confined
  rwa [show m.run s = (.ok a, s') from hyields]

/-- The condition on a computation that succeeds may be known otherwise. -/
theorem of_yields {m : Folding σ α} (hyields : ∀ a s', Yields m s a s' → Post a s')
    (h : Confined Allowed (fun _ _ => True) m s) : Confined Allowed Post m s := by
  unfold Confined at h ⊢
  rcases hrun : m.run s with ⟨fault | a, s'⟩
  · rw [hrun] at h
    exact h
  · exact hyields a s' hrun

/-- Conditions may be weakened. -/
theorem weaken {m : Folding σ α} {Weaker : α → σ → Prop} (h : Confined Allowed Post m s)
    (hweaker : ∀ a s', Post a s' → Weaker a s') : Confined Allowed Weaker m s := by
  unfold Confined at h ⊢
  rcases hrun : m.run s with ⟨fault | a, s'⟩
  · rw [hrun] at h
    exact h
  · rw [hrun] at h
    exact hweaker a s' h

/-- A computation that ends in a fault ends in one that is allowed. -/
theorem allowed {m : Folding σ α} (h : Confined Allowed Post m s) {fault : Fault}
    (hrun : m.run s = (.error fault, s')) : Allowed fault := by
  unfold Confined at h
  rwa [hrun] at h

/-- A confined computation ends as it is asked to. -/
theorem post {m : Folding σ α} (h : Confined Allowed Post m s) {a : α} (hyields : Yields m s a s') :
    Post a s' := by
  unfold Confined at h
  rwa [show m.run s = (.ok a, s') from hyields] at h

end Confined

/-- The invariant holds, and if the numbers are short then the result is bounded by a width. -/
def Bounded (Short : Prop) (width : Width) (Inv : σ → Prop) (value : Int) (s : σ) : Prop :=
  Inv s ∧ (Short → width.Bounds value)

end Folding

open Folding

/-- A stage is confined if the computation that it runs is. -/
theorem Assembly.confined_stage {σ α : Type} {Allowed : Fault → Prop} {Post : α → σ → Prop}
    {m : Folding σ α} {state : σ} (h : Confined Allowed Post m state) (reports : List Progress) :
    Confined Allowed (fun result _ => Post result.1 result.2) (stage m state) reports := by
  unfold stage
  split
  · next hrun => exact .ret (h.post hrun)
  · next hrun => exact h.allowed hrun

/-- An expression is confined if the names that it mentions are. -/
theorem Expr.confined_fold {σ : Type} {Short : Prop} {Allowed : Fault → Prop} {Inv : σ → Prop}
    (hothers : Fault.AllowsOthers Short Allowed) {arith : Arithmetic}
    (hnarrow : Short → arith.width.IsNarrow)
    {resolve : String → Option Location → Folding σ Int} {here : Option Int}
    (hhere : ∀ position, here = some position → Short → arith.width.Bounds position) (e : Expr)
    (hwritable : Short → e.isWritable = true)
    (hresolve : ∀ name ∈ e.mentions, ∀ location s, Inv s →
      Confined Allowed (Bounded Short arith.width Inv) (resolve name location) s)
    (s : σ) (hs : Inv s) :
    Confined Allowed (Bounded Short arith.width Inv) (e.fold arith resolve here) s := by
  -- what is brought into a cell has to be written where the cells are strict
  have hcell : ∀ {value : Int} (location : Option Location) {s : σ}, Inv s →
      (Short → Digits.isWritable value = true) →
      Confined Allowed (Bounded Short arith.width Inv)
        (liftM (arith.toCell value location)) s := by
    intro value location s hs hvalue
    refine .lift (fun cell hcell => ⟨hs, fun _ => (Arithmetic.fits_of_toCell hcell).bounds⟩) ?_
    exact hothers.within_toCell arith location (fun hs => (hnarrow hs).isWritable_bits) hvalue
  induction e generalizing s with
  | num value location => exact hcell location hs hwritable
  | sym name location => exact hresolve name (List.mem_singleton_self name) location s hs
  | here location =>
      cases here with
      | some value => exact .ret ⟨hs, hhere value rfl⟩
      | none => exact .fail (hothers.found rfl (fun _ => rfl) _)
  | un op operand location ih =>
      refine (ih hwritable hresolve s hs).bind fun value s' hs' => ?_
      have hdouble := arith.width.double_le_square
      have hone : 1 ≤ 2 ^ arith.width.bits := Nat.one_le_two_pow
      cases op with
      | minus =>
          refine hcell location hs'.1 fun hs => (hnarrow hs).isWritable_of_le ?_
          have hvalue : value.natAbs ≤ _ := hs'.2 hs
          omega
      | complement =>
          refine hcell location hs'.1 fun hs => (hnarrow hs).isWritable_of_le ?_
          have hvalue : value.natAbs ≤ _ := hs'.2 hs
          unfold Bitwise.complement
          omega
      | plus | inert _ => exact .ret hs'
  | bin op left right ihl ihr =>
      have hsides : Short → left.isWritable = true ∧ right.isWritable = true :=
        fun hs => Bool.and_eq_true_iff.mp (hwritable hs)
      refine (ihl (fun hs => (hsides hs).1)
        (fun name hmem => hresolve name (List.mem_append_left _ hmem)) s hs).bind
        fun x s₁ hs₁ => ?_
      refine (ihr (fun hs => (hsides hs).2)
        (fun name hmem => hresolve name (List.mem_append_right _ hmem)) s₁ hs₁.1).bind
        fun y s₂ hs₂ => ?_
      split
      · next result hresult =>
        refine hcell _ hs₂.1 fun hs => (hnarrow hs).isWritable_of_le ?_
        exact BinaryOp.natAbs_apply_le (hs₁.2 hs) (hs₂.2 hs) hresult
      · next cause hcause =>
        refine .fail (hothers.found (BinaryOp.concernsNames_apply hcause) (fun hs => ?_) _)
        exact BinaryOp.isWritable_of_apply_eq_error ((hnarrow hs).isWritable (hs₂.2 hs)) hcause

/-! ## The second pass -/

namespace SymbolTable

variable {Short : Prop} {Allowed : Fault → Prop} {width : Width} {Inv : SymbolTable → Prop}
  {Known : Expr → Prop}

/-- Known expressions are evaluated within what is allowed, and neither they nor literals break the
invariant.  If the numbers are short, then known expressions can be written, and their values are
bounded by a width that is narrow. -/
structure Discipline (Short : Prop) (Allowed : Fault → Prop) (width : Width)
    (Inv : SymbolTable → Prop) (Known : Expr → Prop) : Prop where
  others : Fault.AllowsOthers Short Allowed
  narrow : Short → width.IsNarrow
  width_eq : Short → ∀ {table}, Inv table → table.arith.width = width
  known : Short → ∀ {e}, Known e → e.isWritable = true
  evaluate : ∀ {e}, Known e → ∀ {here table},
    (∀ position, here = some position → Short → width.Bounds position) → Inv table →
    Confined Allowed (Bounded Short width Inv) (evaluate e here) table
  intern : ∀ {value literal table table'}, Inv table →
    Yields (intern value) table literal table' → Inv table'

namespace Discipline

variable (h : Discipline Short Allowed width Inv Known) {table : SymbolTable} (htable : Inv table)

include h htable

/-- A bounded value is brought into a cell. -/
theorem confined_toCell {value : Int} (location : Option Location)
    (hvalue : Short → width.Bounds value) :
    Confined Allowed (Bounded Short width Inv)
      (liftM (table.arith.toCell value location) : Folding SymbolTable Int) table := by
  refine .lift (fun cell hcell => ⟨htable, fun hs => ?_⟩) ?_
  · rw [← h.width_eq hs htable]
    exact (Arithmetic.fits_of_toCell hcell).bounds
  · refine h.others.within_toCell _ location (fun hs => ?_) fun hs => ?_
    · rw [h.width_eq hs htable]
      exact (h.narrow hs).isWritable_bits
    · exact (h.narrow hs).isWritable (hvalue hs)

/-- A literal is pooled within the bounds. -/
theorem confined_intern {value : Int} (hvalue : Short → width.Bounds value) :
    Confined Allowed (fun _ => Inv) (SymbolTable.intern value) table := by
  refine .of_yields (fun literal table' hyields => h.intern htable hyields) (.read ?_)
  refine (h.confined_toCell htable none hvalue).bind fun cell s hcell => ?_
  refine .store ?_
  split
  · have hdefine (s : SymbolTable) : Confined Allowed (fun _ _ => True)
        (update fun table : SymbolTable => table.defineLiteral cell) s :=
      .update (fun _ _ => trivial)
        (h.others.within_defineLiteral s fun hs => (h.narrow hs).isWritable (hcell.2 hs))
    exact (hdefine _).bind fun _ _ _ => trivial
  · exact trivial

end Discipline

end SymbolTable

section SecondPass

open SymbolTable

variable {Short : Prop} {Allowed : Fault → Prop} {width : Width} {Inv : SymbolTable → Prop}
  {Known : Expr → Prop}

/-- The expression of an operand, if it has one, is known. -/
def Operand.Has (Known : Expr → Prop) (operand : Operand) : Prop :=
  ∀ e, operand.access.expr? = some e → Known e

/-- All expressions of an item are known. -/
def Item.Has (Known : Expr → Prop) (item : Item) : Prop :=
  ∀ pair ∈ Assembly.expressions item.location item.body, Known pair.1

/-- The number in a slot, if it has one, is bounded by a width. -/
def Slot.Bounded (width : Width) : Slot → Prop
  | literal value | address value => width.Bounds value
  | temp _ => True

/-- A literal is bounded as its value is. -/
@[simp]
theorem Slot.bounded_literal {value : Int} :
    (Slot.literal value).Bounded width ↔ width.Bounds value := .rfl

@[simp]
theorem Slot.bounded_address {value : Int} :
    (Slot.address value).Bounded width ↔ width.Bounds value := .rfl

/-- A temp field has no number to be bounded. -/
@[simp]
theorem Slot.bounded_temp {field : Temp} : (Slot.temp field).Bounded width := trivial

/-- What is bounded can be written if cells are narrow. -/
theorem Slot.Bounded.isWritable {slot : Slot} (h : slot.Bounded width) (hnarrow : width.IsNarrow) :
    slot.isWritable = true := by
  cases slot with
  | literal _ | address _ => exact hnarrow.isWritable h
  | temp _ => rfl

/-- The invariant holds, and if the numbers are short then those of the slots are bounded. -/
def Slot.AllBounded (Short : Prop) (width : Width) (Inv : SymbolTable → Prop)
    (slots : List (Slot × Slot × Slot)) (table : SymbolTable) : Prop :=
  Inv table ∧ (Short → ∀ slot ∈ flatten slots, slot.Bounded width)

variable (h : Discipline Short Allowed width Inv Known)

include h

namespace Operand

variable {operand : Operand}

omit h in
/-- Only immediate operands are literals. -/
theorem isLiteral_of_lowerRead {here : Int} {slot : Slot} {table table' : SymbolTable}
    (hslot : Yields (operand.lowerRead here) table slot table') :
    slot.literal?.isSome = operand.access.isImmediate := by
  unfold lowerRead at hslot
  cases haccess : operand.access with
  | temp field =>
      rw [haccess] at hslot
      obtain ⟨rfl, -⟩ := yields_pure.mp hslot
      rfl
  | immediate _ | memory _ =>
      rw [haccess] at hslot
      obtain ⟨_, _, -, hpure⟩ := yields_bind.mp hslot
      obtain ⟨rfl, -⟩ := yields_pure.mp hpure
      rfl

variable (hoperand : operand.Has Known)

include hoperand

/-- An operand with a known expression can be written if the numbers are short. -/
theorem isWritable_of_has (hs : Short) : operand.isWritable = true := by
  unfold isWritable Access.isWritable
  split
  · next e heq => exact h.known hs (hoperand e (by rw [heq]; rfl))
  · next e heq => exact h.known hs (hoperand e (by rw [heq]; rfl))
  · rfl

variable {here : Int} (hhere : Short → width.Bounds here) {table : SymbolTable}
  (htable : Inv table)

include hhere htable

/-- The expression of an operand is evaluated within the bounds. -/
theorem confined_evaluate {e : Expr} (he : operand.access.expr? = some e) :
    Confined Allowed (Folding.Bounded Short width Inv) (evaluate e (some here)) table := by
  refine h.evaluate (hoperand e he) ?_ htable
  rintro _ ⟨⟩
  exact hhere

/-- An operand that is read is lowered within the bounds. -/
theorem confined_lowerRead :
    Confined Allowed (fun slot s => Inv s ∧ (Short → slot.Bounded width)) (operand.lowerRead here)
      table := by
  unfold lowerRead
  split
  · exact .ret ⟨htable, fun _ => trivial⟩
  · next heq =>
    exact (confined_evaluate h hoperand hhere htable (by rw [heq]; rfl)).bind fun _ _ hs => .ret hs
  · next heq =>
    exact (confined_evaluate h hoperand hhere htable (by rw [heq]; rfl)).bind fun _ _ hs => .ret hs

/-- So is an operand that is written to. -/
theorem confined_lowerWrite :
    Confined Allowed (fun slot s => Inv s ∧ (Short → slot.Bounded width)) (operand.lowerWrite here)
      table := by
  unfold lowerWrite
  split
  · exact .ret ⟨htable, fun _ => trivial⟩
  · next heq =>
    exact (confined_evaluate h hoperand hhere htable (by rw [heq]; rfl)).bind fun _ _ _ =>
      .fail (h.others.refusal rfl rfl (isWritable_of_has h hoperand))
  · next heq =>
    exact (confined_evaluate h hoperand hhere htable (by rw [heq]; rfl)).bind fun _ _ hs => .ret hs

/-- So is a target. -/
theorem confined_lowerTarget :
    Confined Allowed (fun slot s => Inv s ∧ (Short → slot.Bounded width))
      (operand.lowerTarget here) table := by
  unfold lowerTarget
  split
  · exact .ret ⟨htable, fun _ => trivial⟩
  · next heq =>
    exact (confined_evaluate h hoperand hhere htable (by rw [heq]; rfl)).bind fun _ _ hs => .ret hs
  · next heq =>
    exact (confined_evaluate h hoperand hhere htable (by rw [heq]; rfl)).bind fun _ _ hs => .ret hs

/-- So is an addend. -/
theorem confined_lowerAddend :
    Confined Allowed (Folding.Bounded Short width Inv) (operand.lowerAddend here) table := by
  have hrefusal : Allowed (operand.refusal (.runtimeAddend operand.render)) :=
    h.others.refusal rfl rfl (isWritable_of_has h hoperand)
  unfold lowerAddend
  dsimp only
  split
  · exact .fail hrefusal
  · next heq => exact confined_evaluate h hoperand hhere htable (by rw [heq]; rfl)
  · next heq =>
    exact (confined_evaluate h hoperand hhere htable (by rw [heq]; rfl)).bind fun _ _ _ =>
      .fail hrefusal

end Operand

namespace Operation

omit h

/-- The addresses after the triples of an expansion are bounded if the last one is. -/
theorem bounded_after {base : Int} {count : Nat} (hbase : 0 ≤ base)
    (hend : width.Bounds (base + count * tripleSize)) :
    ∀ index < count, (after base index).Bounded width := by
  intro index hindex
  have hbound : (base + tripleSize * (index + 1) : Int).natAbs ≤
      (base + count * tripleSize : Int).natAbs := by
    unfold tripleSize
    omega
  exact hbound.trans hend

include h

variable {base : Int} {table : SymbolTable} (htable : Inv table)

include htable

/-- The addition of a constant stays within the bounds, although the addend is negated. -/
theorem confined_addConstantSlots (location : Location) {dst : Slot} {addend : Int}
    (hafter : Short → (after base 0).Bounded width) (hdst : Short → dst.Bounded width)
    (haddend : Short → width.Bounds addend) :
    Confined Allowed (Slot.AllBounded Short width Inv) (addConstantSlots base location dst addend)
      table := by
  refine .read ((h.confined_toCell htable (some location) fun hs => ?_).bind
    fun _ _ hnegated => .ret ⟨hnegated.1, fun hs => ?_⟩)
  · rw [Width.Bounds, Int.natAbs_neg]
    exact haddend hs
  · simp [Slot.flatten, hnegated.2 hs, hdst hs, hafter hs]

/-- The operands of an assignment are lowered one after the other, and what follows knows whether
the source is a literal. -/
theorem confined_assignment {dst src : Operand} {here : Int}
    {rest : Slot → Slot → Folding SymbolTable (List (Slot × Slot × Slot))}
    (hop : ∀ operand ∈ [dst, src], operand.Has Known) (hhere : Short → width.Bounds here)
    (hrest : ∀ a b s, Inv s → b.literal?.isSome = src.access.isImmediate →
      (Short → a.Bounded width) → (Short → b.Bounded width) →
      Confined Allowed (Slot.AllBounded Short width Inv) (rest a b) s) :
    Confined Allowed (Slot.AllBounded Short width Inv)
      (do
        let a ← dst.lowerWrite here
        let b ← src.lowerRead here
        rest a b) table := by
  have hdst : dst.Has Known := hop dst (.head _)
  have hsrc : src.Has Known := hop src (.tail _ (.head _))
  refine (dst.confined_lowerWrite h hdst hhere htable).bind fun a s₁ hs₁ => ?_
  refine (src.confined_lowerRead h hsrc hhere hs₁.1).seq fun b s₂ hslot hs₂ => ?_
  exact hrest a b s₂ hs₂.1 (Operand.isLiteral_of_lowerRead hslot) hs₁.2 hs₂.2

/-- So are the two operands and the target of a branch. -/
theorem confined_branch {a b target : Operand} {here : Int}
    {code : Slot → Slot → Slot → List (Slot × Slot × Slot)}
    (hop : ∀ operand ∈ [a, b, target], operand.Has Known) (hhere : Short → width.Bounds here)
    (hcode : ∀ x y z, Short → x.Bounded width → y.Bounded width → z.Bounded width →
      ∀ slot ∈ Slot.flatten (code x y z), slot.Bounded width) :
    Confined Allowed (Slot.AllBounded Short width Inv)
      (do
        let x ← a.lowerRead here
        let y ← b.lowerRead here
        let z ← target.lowerTarget here
        pure (code x y z)) table := by
  have ha : a.Has Known := hop a (.head _)
  have hb : b.Has Known := hop b (.tail _ (.head _))
  have htarget : target.Has Known := hop target (.tail _ (.tail _ (.head _)))
  refine (a.confined_lowerRead h ha hhere htable).bind fun x s₁ hs₁ => ?_
  refine (b.confined_lowerRead h hb hhere hs₁.1).bind fun y s₂ hs₂ => ?_
  refine (target.confined_lowerTarget h htarget hhere hs₂.1).bind fun z s₃ hs₃ => ?_
  exact .ret ⟨hs₃.1, fun hs => hcode x y z hs (hs₁.2 hs) (hs₂.2 hs) (hs₃.2 hs)⟩

/-- What an operation expands to is bounded if the end of the expansion is. -/
theorem confined_slots {op : Operation} (hbase : 0 ≤ base)
    (hop : ∀ operand ∈ op.operands, operand.Has Known)
    (hend : Short → width.Bounds (base + op.triples * tripleSize)) (location : Location) :
    Confined Allowed (Slot.AllBounded Short width Inv) (op.slots base location) table := by
  have hafter := fun hs => bounded_after hbase (hend hs)
  cases op with
  | hlt =>
      refine .ret ⟨htable, fun _ => ?_⟩
      simp [Slot.flatten, haltTarget, width.fits_zero.bounds, width.fits_neg_one.bounds]
  | jmp target =>
      have htarget : target.Has Known := hop _ (by simp [operands])
      refine (target.confined_lowerTarget h htarget hend htable).bind fun _ _ hs => ?_
      exact .ret ⟨hs.1, fun hshort => by simp [Slot.flatten, hs.2 hshort]⟩
  | sub dst src =>
      replace hafter : Short → ∀ index < 1, (after base index).Bounded width := hafter
      refine confined_assignment h htable hop hend fun a b s hinv _ ha hb =>
        .ret ⟨hinv, fun hs => ?_⟩
      simp [Slot.flatten, ha hs, hb hs, hafter hs 0 (by decide)]
  | mov dst src =>
      replace hafter : Short → ∀ index < 4, (after base index).Bounded width := hafter
      refine confined_assignment h htable hop hend fun a b s hinv _ ha hb =>
        .ret ⟨hinv, fun hs => ?_⟩
      simp [Slot.flatten, moveSlots, ha hs, hb hs, hafter hs 0 (by decide), hafter hs 1 (by decide),
        hafter hs 2 (by decide), hafter hs 3 (by decide)]
  | addR dst src =>
      replace hafter : Short → ∀ index < 3, (after base index).Bounded width := hafter
      refine confined_assignment h htable hop hend fun a b s hinv _ ha hb =>
        .ret ⟨hinv, fun hs => ?_⟩
      simp [Slot.flatten, addSlots, ha hs, hb hs, hafter hs 0 (by decide), hafter hs 1 (by decide),
        hafter hs 2 (by decide)]
  | addC dst addend =>
      replace hafter : Short → ∀ index < 1, (after base index).Bounded width := hafter
      have hdst : dst.Has Known := hop _ (by simp [operands])
      have haddend : addend.Has Known := hop _ (by simp [operands])
      refine (dst.confined_lowerWrite h hdst hend htable).bind fun _ s₁ hs₁ => ?_
      refine (addend.confined_lowerAddend h haddend hend hs₁.1).bind fun _ s₂ hs₂ => ?_
      exact confined_addConstantSlots h hs₂.1 location (fun hs => hafter hs 0 (by decide))
        hs₁.2 hs₂.2
  | add dst src =>
      refine confined_assignment h htable hop hend fun a b s hinv hliteral ha hb => ?_
      -- the number of triples is that of the source which has been read
      rw [triples_add, ← hliteral] at hafter
      cases b with
      | literal value =>
          exact confined_addConstantSlots h hinv location (fun hs => hafter hs 0 Nat.one_pos) ha hb
      | address _ | temp _ =>
          replace hafter : Short → ∀ index < 3, (after base index).Bounded width := hafter
          refine .ret ⟨hinv, fun hs => ?_⟩
          simp [Slot.flatten, addSlots, ha hs, hb hs, hafter hs 0 (by decide),
            hafter hs 1 (by decide), hafter hs 2 (by decide)]
  | subleq a b target =>
      refine confined_branch h htable hop hend fun x y z _ hx hy hz => ?_
      simp [Slot.flatten, hx, hy, hz]
  | je a b target =>
      replace hafter : Short → ∀ index < 5, (after base index).Bounded width := hafter
      refine confined_branch h htable hop hend fun x y z hs hx hy hz => ?_
      simp [Slot.flatten, equalSlots, hx, hy, hz, hafter hs 0 (by decide),
        hafter hs 1 (by decide), hafter hs 3 (by decide), hafter hs 4 (by decide)]

/-- The literals of an expansion are pooled within the bounds. -/
theorem confined_internSlots {slots : List Slot}
    (hslots : Short → ∀ slot ∈ slots, slot.Bounded width) :
    Confined Allowed (fun _ => Inv) (internSlots slots) table := by
  induction slots generalizing table with
  | nil => exact .ret htable
  | cons slot rest ih =>
      have hrest : Short → ∀ slot ∈ rest, slot.Bounded width :=
        fun hs slot hmem => hslots hs slot (List.mem_cons_of_mem _ hmem)
      cases slot with
      | literal value =>
          refine (h.confined_intern htable fun hs => ?_).bind fun _ s hs => ih hs hrest
          exact hslots hs _ List.mem_cons_self
      | address _ | temp _ => exact ih htable hrest

/-- An operation is expanded within the bounds, and if numbers are short then its triples can be
written. -/
theorem confined_expand {op : Operation} (hbase : 0 ≤ base)
    (hop : ∀ operand ∈ op.operands, operand.Has Known)
    (hend : Short → width.Bounds (base + op.triples * tripleSize)) (location : Location) :
    Confined Allowed
      (fun triples s => Inv s ∧ (Short → triples.all Triple.isWritable = true))
      (op.expand base location) table := by
  refine (confined_slots h htable hbase hop hend location).bind fun slots s₁ hs₁ => ?_
  rw [Slot.AllBounded, ← flatMap_slots_number base 0] at hs₁
  refine Confined.bind (confined_internSlots h hs₁.1 hs₁.2) fun _ s₂ hs₂ => .ret ⟨hs₂, fun hs => ?_⟩
  refine List.all_eq_true.mpr fun triple htriple => List.all_eq_true.mpr fun slot hslot => ?_
  exact (hs₁.2 hs slot (List.mem_flatMap.mpr ⟨triple, htriple, hslot⟩)).isWritable (h.narrow hs)

end Operation

namespace Datum

omit h in
/-- The bounds of a directive are small numbers. -/
theorem isWritable_range (size : DataSize) :
    Digits.isWritable (range size).1 = true ∧ Digits.isWritable (range size).2 = true := by
  cases size <;> decide +kernel

omit h in
/-- Bytes are small numbers. -/
theorem isWritable_of_mem_bytes {text : String} {byte : Nat} (hbyte : byte ∈ bytes text) :
    Digits.isWritable byte = true := by
  obtain ⟨c, -, hbyte⟩ := List.mem_flatMap.mp hbyte
  have hlt : byte < 2 ^ 8 := by
    have hchar : c.toNat < 0x110000 := by
      rcases c.valid with hlow | ⟨-, hhigh⟩
      · exact hlow.trans (by decide)
      · exact hhigh
    unfold Text.Utf8.encodeCode at hbyte
    split_ifs at hbyte <;> simp only [List.mem_cons, List.not_mem_nil, or_false] at hbyte <;> omega
  exact Digits.isWritable_of_le_two_pow (by decide) hlt.le

/-- A datum is turned into cells within the bounds. -/
theorem confined_cells {datum : Datum} (hdatum : ∀ e, datum = .value e → Known e) (size : DataSize)
    (location : Location) {here : Int} (hhere : Short → width.Bounds here) {table : SymbolTable}
    (htable : Inv table) :
    Confined Allowed (fun _ => Inv) (datum.cells size location here) table := by
  cases datum with
  | text t =>
      refine .read (.lift (fun _ _ => htable) ?_)
      refine h.others.within_mapM_toCell _ _ (fun hs => ?_) fun _ => isWritable_of_mem_bytes
      rw [h.width_eq hs htable]
      exact (h.narrow hs).isWritable_bits
  | value e =>
      -- `$` stands for the end of the directive, which is in reach
      refine (h.evaluate (hdatum e rfl) ?_ htable).bind fun value s hs => ?_
      · rintro _ ⟨⟩
        exact hhere
      · dsimp only
        split
        -- the message quotes the value and the range of the directive
        · refine .fail (h.others.found rfl (fun hshort => ?_) _)
          have hvalue := (h.narrow hshort).isWritable (hs.2 hshort)
          have hrange := isWritable_range size
          rw [Cause.isWritable, hvalue, hrange.1, hrange.2]
          rfl
        · exact .ret hs.1

/-- So are all data of an item. -/
theorem confined_cellsOf {values : List Datum} (hvalues : ∀ e, .value e ∈ values → Known e)
    (size : DataSize) (location : Location) {here : Int} (hhere : Short → width.Bounds here)
    {table : SymbolTable} (htable : Inv table) :
    Confined Allowed (fun _ => Inv) (cellsOf size location here values) table := by
  induction values generalizing table with
  | nil => exact .ret htable
  | cons datum rest ih =>
      have hdatum : ∀ e, datum = .value e → Known e :=
        fun e heq => hvalues e (heq ▸ List.mem_cons_self)
      refine (confined_cells h hdatum size location hhere htable).bind fun _ s₁ hs₁ => ?_
      refine (ih (fun e hmem => hvalues e (List.mem_cons_of_mem _ hmem)) hs₁).bind ?_
      exact fun _ s₂ hs₂ => .ret hs₂

end Datum

namespace Item

/-- The end of an item is bounded by a width, and an operation ends with its expansion. -/
structure InReach (width : Width) (item : Item) : Prop where
  bounds : width.Bounds item.endAddress
  size_eq : ∀ {op}, item.body = .operation op → item.size = op.triples * tripleSize

section Has

omit h

variable {item : Item} (hitem : item.Has Known)

include hitem

/-- What is known of an item is known of the operands of its operation. -/
theorem has_of_operation {op : Operation} (hbody : item.body = .operation op) :
    ∀ operand ∈ op.operands, operand.Has Known := by
  intro operand hmem e he
  refine hitem (e, some operand.location) ?_
  rw [hbody]
  exact List.mem_filterMap.mpr ⟨operand, hmem, by rw [he]; rfl⟩

/-- It is known of its data. -/
theorem has_of_data {size : DataSize} {values : List Datum}
    (hbody : item.body = .data size values) : ∀ e, .value e ∈ values → Known e := by
  intro e hmem
  refine hitem (e, e.location) ?_
  rw [hbody]
  exact List.mem_filterMap.mpr ⟨_, hmem, rfl⟩

/-- It is known of the number of cells that it reserves. -/
theorem has_of_reserve {size : DataSize} {count : Expr} (hbody : item.body = .reserve size count) :
    Known count := by
  refine hitem (count, some item.location) ?_
  rw [hbody]
  exact List.mem_singleton_self _

end Has

/-- An item with known expressions can be written if the numbers are short. -/
theorem isWritable_of_has {item : Item} (hitem : item.Has Known) (hs : Short) :
    item.body.isWritable = true := by
  cases hbody : item.body with
  | operation op =>
      refine List.all_eq_true.mpr fun operand hmem => ?_
      exact operand.isWritable_of_has h (has_of_operation hitem hbody operand hmem) hs
  | data size values =>
      refine List.all_eq_true.mpr fun datum hmem => ?_
      cases datum with
      | value e => exact h.known hs (has_of_data hitem hbody e hmem)
      | text _ => rfl
  | reserve size count => exact h.known hs (has_of_reserve hitem hbody)

/-- What an item with known expressions becomes can be listed if the numbers are short. -/
theorem confined_content {item : Item} (hitem : item.Has Known)
    (hreach : Short → item.InReach width) {table : SymbolTable} (htable : Inv table) :
    Confined Allowed
      (fun content s => Inv s ∧ (Short → Assembly.isListable item content = true))
      item.content table := by
  have hwritable : Short → item.body.isWritable = true := isWritable_of_has h hitem
  unfold content Body.content
  split
  · next op hbody =>
    -- the expansion may point right behind itself, so its end has to be in reach too
    have hend : Short → width.Bounds (item.address + op.triples * tripleSize) := by
      intro hs
      have hbounds := (hreach hs).bounds
      rw [endAddress, (hreach hs).size_eq hbody] at hbounds
      exact_mod_cast hbounds
    refine (Operation.confined_expand h htable (Int.natCast_nonneg _)
      (has_of_operation hitem hbody) hend _).bind fun triples s hs => .ret ⟨hs.1, fun hshort => ?_⟩
    rw [Assembly.isListable, hs.2 hshort, Bool.or_true, Bool.and_true]
    have hop := hwritable hshort
    rwa [hbody] at hop
  · next size values hbody =>
    exact (Datum.confined_cellsOf h (has_of_data hitem hbody) _ _ (fun hs => (hreach hs).bounds)
      htable).bind fun _ s hs => .ret ⟨hs, hwritable⟩
  · next size count hbody =>
    refine (h.evaluate (has_of_reserve hitem hbody) ?_ htable).bind
      fun _ s hs => .ret ⟨hs.1, hwritable⟩
    exact fun _ hnone => by cases hnone

/-- The second pass, for items with known expressions. -/
theorem confined_contents {items : List Item} (hitems : ∀ item ∈ items, item.Has Known)
    (hreach : Short → ∀ item ∈ items, item.InReach width) {table : SymbolTable}
    (htable : Inv table) :
    Confined Allowed
      (fun contents s => Inv s ∧
        (Short → ∀ pair ∈ contents, Assembly.isListable pair.1 pair.2 = true))
      (contents items) table := by
  induction items generalizing table with
  | nil => exact .ret ⟨htable, fun _ _ hmem => by cases hmem⟩
  | cons item rest ih =>
      refine (confined_content h (hitems item List.mem_cons_self)
        (fun hs => hreach hs item List.mem_cons_self) htable).bind fun content s₁ hs₁ => ?_
      refine (ih (fun item hmem => hitems item (List.mem_cons_of_mem _ hmem))
        (fun hs item hmem => hreach hs item (List.mem_cons_of_mem _ hmem)) hs₁.1).bind
        fun others s₂ hs₂ => .ret ⟨hs₂.1, fun hs => ?_⟩
      exact List.forall_mem_cons.mpr ⟨hs₁.2 hs, hs₂.2 hs⟩

end Item

end SecondPass

/-! ## Storage -/

namespace Layout

variable {Short : Prop} {Allowed : Fault → Prop}

/-- The temp fields are defined within the bounds. -/
theorem confined_defineTemps (hothers : Fault.AllowsOthers Short Allowed) (address : Int)
    (temps : List Temp) (state : Layout × SymbolTable) :
    Confined Allowed (fun _ _ => True) (defineTemps address temps) state := by
  induction temps generalizing address state with
  | nil => exact trivial
  | cons field rest ih =>
      refine Confined.bind (.of_yields (fun _ _ _ => trivial) (.update (fun _ _ => trivial) ?_))
        fun _ s _ => ih (address + 1) s
      intro fault hfault
      cases hdefine : state.2.defineTemp field.name address with
      | error fault' =>
          simp only [hdefine] at hfault
          obtain rfl := Except.error.inj hfault
          exact hothers.within_define _ _ fault' hdefine
      | ok table =>
          simp only [hdefine] at hfault
          cases hfault

/-- The storage is refused for its size, and where a name is taken; for an excess only if a literal
of the pool or the size cannot be written. -/
theorem confined_placeStorage (hothers : Fault.AllowsOthers Short Allowed) {limit : Int}
    (hlimit : Short → Digits.isWritable limit = true) {state : Layout × SymbolTable}
    (hpool : Short → ∀ literal ∈ state.2.pool.literals, literal.isWritable = true)
    (hsize : Short → Digits.isWritable
      (state.1.itemsEnd + state.2.pool.literals.length + Temp.all.length : Int) = true) :
    Confined Allowed (fun _ _ => True) (placeStorage limit) state := by
  obtain ⟨layout, table⟩ := state
  refine .read (.store ?_)
  have hend : Fault.Within Allowed (table.poolEnd layout.itemsEnd) := by
    unfold SymbolTable.poolEnd
    split
    · exact Fault.within_ok _
    · next hall =>
      exact Fault.within_error (hothers.excess fun hs => hall (List.all_eq_true.mpr (hpool hs)))
  refine .given hend fun tempBase hplaced => .change ?_
  obtain ⟨-, rfl⟩ := SymbolTable.poolEnd_eq_ok.mp hplaced
  refine (confined_defineTemps hothers _ _ _).bind fun _ s _ => .change ?_
  exact .given (hothers.within_checkSize hlimit hsize) fun _ _ => trivial

end Layout

end Subleq
