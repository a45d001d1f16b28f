import Subleq.Proofs.Assembly

/-!
# Assemblies that follow one another

Two assemblies may start from different tables, with another arithmetic or with the same symbols in
another order, and still do the same as long as nothing fails.  `Folding.Follows R m m'` says so of
two computations: from related states on, what the first one returns is what the second one returns,
and the states that they leave are related again.

What a relation between tables has to be like for this is `SymbolTable.Simulation`: related tables
answer the same questions with the same values, enter the same symbols, and have the same pool.  All
stages follow from that.  Where the entries of a name are the same in related tables, and stay the
same when a value is kept (`SymbolTable.Lookup`), so are the answers.
-/

namespace Subleq

/-! ## Computations that follow -/

namespace Folding

variable {σ τ α β : Type}

/-- From related states on, whatever the first computation gives is what the second one gives. -/
def Follows (R : σ → τ → Prop) (m : Folding σ α) (m' : Folding τ α) : Prop :=
  ∀ s t a s', R s t → Yields m s a s' → ∃ t', Yields m' t a t' ∧ R s' t'

namespace Follows

variable {R : σ → τ → Prop} {m : Folding σ α} {m' : Folding τ α}

theorem ret (a : α) : Follows R (pure a) (pure a) := by
  intro s t b s' hst h
  obtain ⟨rfl, rfl⟩ := yields_pure.mp h
  exact ⟨t, yields_pure.mpr ⟨rfl, rfl⟩, hst⟩

/-- A refusal is followed by anything, as nothing is said about it. -/
theorem fail (fault : Fault) : Follows R (throw fault) m' := by
  intro s t a s' _ h
  exact absurd h yields_throw

/-- Steps may be put one after the other. -/
theorem bind {f : α → Folding σ β} {f' : α → Folding τ β} (hm : Follows R m m')
    (hf : ∀ a, Follows R (f a) (f' a)) : Follows R (m >>= f) (m' >>= f') := by
  intro s t b s'' hst h
  obtain ⟨a, s', hfirst, hrest⟩ := yields_bind.mp h
  obtain ⟨t', hfirst', hst'⟩ := hm s t a s' hst hfirst
  obtain ⟨t'', hrest', hst''⟩ := hf a s' t' b s'' hst' hrest
  exact ⟨t'', yields_bind.mpr ⟨a, t', hfirst', hrest'⟩, hst''⟩

/-- Both computations look at their states first. -/
theorem read {f : σ → Folding σ β} {f' : τ → Folding τ β}
    (hf : ∀ s t, R s t → Follows R (f s) (f' t)) : Follows R (get >>= f) (get >>= f') := by
  intro s t b s' hst h
  obtain ⟨_, _, hget, hrest⟩ := yields_bind.mp h
  obtain ⟨rfl, rfl⟩ := yields_get.mp hget
  obtain ⟨t', hrest', hst'⟩ := hf s t hst s t b s' hst hrest
  exact ⟨t', yields_bind.mpr ⟨t, t, yields_get.mpr ⟨rfl, rfl⟩, hrest'⟩, hst'⟩

/-- So is a result that the state plays no part in, if it is the same. -/
theorem lift {x x' : Except Fault α} (hx : ∀ a, x = .ok a → x' = .ok a) :
    Follows R (liftM x) (liftM x') := by
  intro s t a s' hst h
  obtain ⟨hok, rfl⟩ := yields_liftM.mp h
  exact ⟨t, yields_liftM.mpr ⟨hx a hok, rfl⟩, hst⟩

/-- Related states may be stored. -/
theorem store {s : σ} {t : τ} (hst : R s t) :
    Follows R (set s : Folding σ PUnit) (set t : Folding τ PUnit) := by
  intro _ _ u s' _ h
  obtain rfl := yields_set.mp h
  exact ⟨t, yields_set.mpr rfl, hst⟩

/-- So is a change that keeps the states related. -/
theorem change {f : σ → σ} {f' : τ → τ} (hf : ∀ s t, R s t → R (f s) (f' t)) :
    Follows R (modify f : Folding σ PUnit) (modify f' : Folding τ PUnit) := by
  intro s t u s' hst h
  obtain rfl := yields_modify.mp h
  exact ⟨f' t, yields_modify.mpr rfl, hf s t hst⟩

/-- So is one that may be refused, if the second is refused no more often. -/
theorem update {f : σ → Except Fault σ} {f' : τ → Except Fault τ}
    (hf : ∀ s t s', R s t → f s = .ok s' → ∃ t', f' t = .ok t' ∧ R s' t') :
    Follows R (update f) (update f') := by
  intro s t u s' hst h
  obtain ⟨t', hok, hst'⟩ := hf s t s' hst (yields_update.mp h)
  exact ⟨t', yields_update.mpr hok, hst'⟩

end Follows

end Folding

open Folding

/-! ## Expressions -/

/-- The second arithmetic brings into a cell, as the same, whatever the first one does. -/
structure Arithmetic.Accepts (arith arith' : Arithmetic) : Prop where
  bits_le : arith.width.bits ≤ arith'.width.bits
  toCell : ∀ {value cell location}, arith.toCell value location = .ok cell →
    arith'.toCell value location = .ok cell
  apply : ∀ {op : BinaryOp} {x y result cell location}, op.apply arith.width x y = .ok result →
    arith.toCell result location = .ok cell →
    ∃ result', op.apply arith'.width x y = .ok result' ∧ arith'.toCell result' location = .ok cell

theorem Arithmetic.Accepts.refl (arith : Arithmetic) : arith.Accepts arith :=
  ⟨le_rfl, id, fun happly hcell => ⟨_, happly, hcell⟩⟩

/-- The value of an expression is the same if those of its names are. -/
theorem Expr.follows_fold {σ τ : Type} {R : σ → τ → Prop} {arith arith' : Arithmetic}
    (haccepts : arith.Accepts arith') {resolve : String → Option Location → Folding σ Int}
    {resolve' : String → Option Location → Folding τ Int} (here : Option Int)
    (hresolve : ∀ name location, Follows R (resolve name location) (resolve' name location))
    (e : Expr) : Follows R (e.fold arith resolve here) (e.fold arith' resolve' here) := by
  -- by induction on the expression; a refusal by the second arithmetic is excluded by the first
  induction e with
  | num value location => exact .lift fun _ => haccepts.toCell
  | sym name location => exact hresolve name location
  | here location =>
      cases here with
      | some value => exact .ret value
      | none => exact .fail _
  | un op operand location ih =>
      refine ih.bind fun value => ?_
      cases op with
      | minus | complement => exact .lift fun _ => haccepts.toCell
      | plus | inert _ => exact .ret value
  | bin op left right ihl ihr =>
      refine ihl.bind fun x => ihr.bind fun y => ?_
      cases hresult : op.apply arith.width x y with
      | error cause => exact .fail _
      | ok result =>
          intro s t cell s' hst h
          obtain ⟨hcell, rfl⟩ := yields_liftM.mp h
          -- the results may differ before they are brought into the cell, not after
          obtain ⟨result', hresult', hcell'⟩ := haccepts.apply hresult hcell
          rw [hresult']
          exact ⟨t, yields_liftM.mpr ⟨hcell', rfl⟩, hst⟩

/-! ## Answers -/

namespace SymbolTable

variable {R : SymbolTable → SymbolTable → Prop}

/-- Related tables have the same entries under all names, and the same values can be kept in them. -/
structure Lookup (R : SymbolTable → SymbolTable → Prop) : Prop where
  accepts : ∀ {table table'}, R table table' → table.arith.Accepts table'.arith
  bindings_eq : ∀ {table table'}, R table table' → table'.bindings = table.bindings
  length_eq : ∀ {table table'}, R table table' → table'.symbols.length = table.symbols.length
  find?_eq : ∀ {table table'}, R table table' → ∀ name, table'.find? name = table.find? name
  setValue : ∀ {table table'}, R table table' → ∀ name value,
    R (table.setValue name value) (table'.setValue name value)

namespace Lookup

variable (hR : Lookup R)

include hR

/-- Names are resolved in step, if their values are. -/
theorem follows_resolveWith {value : String → Option Location → Folding SymbolTable Int}
    (hvalue : ∀ name location, Follows R (value name location) (value name location))
    (name : String) (location : Option Location) :
    Follows R (resolveWith value name location) (resolveWith value name location) := by
  refine .read fun table table' htables => ?_
  rw [hR.bindings_eq htables]
  cases OrderedMap.get? table.bindings name with
  | some bound => exact .ret bound
  | none => exact hvalue name location

/-- A stored value is found in step, and another one if it is folded in step. -/
theorem follows_valueOrFold {fold : Symbol → Folding SymbolTable Int} (name : String)
    (location : Option Location) (hfold : ∀ symbol, Follows R (fold symbol) (fold symbol)) :
    Follows R (valueOrFold fold name location) (valueOrFold fold name location) := by
  refine .read fun table table' htables => ?_
  -- related tables find the same symbol
  rw [hR.find?_eq htables]
  cases table.find? name with
  | none => exact .fail _
  | some symbol =>
      cases hvalue : symbol.value with
      | some value =>
          simp only [hvalue]
          exact .ret value
      | none =>
          simp only [hvalue]
          by_cases hkind : symbol.kind ≠ .constant
          · rw [if_pos hkind]
            exact .fail _
          · rw [if_neg hkind]
            exact hfold symbol

/-- Constants are folded in step, if the values that they refer to are. -/
theorem follows_foldConstant {value : String → Option Location → Folding SymbolTable Int}
    (hvalue : ∀ name location, Follows R (value name location) (value name location))
    (symbol : Symbol) : Follows R (foldConstant value symbol) (foldConstant value symbol) := by
  unfold foldConstant
  split
  · exact .fail _
  · next definition _ =>
    refine .read fun table table' htables => ?_
    refine (definition.follows_fold (hR.accepts htables) none (hR.follows_resolveWith hvalue)).bind
      fun result => ?_
    exact (Follows.change fun _ _ h => hR.setValue h symbol.name result).bind fun _ => .ret result

/-- By induction on the rounds, the values are found in step. -/
theorem follows_valueWithin (rounds : Nat) (folding : List String) (name : String)
    (location : Option Location) :
    Follows R (valueWithin rounds folding name location)
      (valueWithin rounds folding name location) := by
  induction rounds generalizing folding name location with
  | zero => exact hR.follows_valueOrFold name location fun _ => .fail _
  | succ rounds ih =>
      refine hR.follows_valueOrFold name location fun symbol => ?_
      split
      · exact .fail _
      · exact hR.follows_foldConstant (ih _) symbol

/-- So they are in as many rounds as are needed. -/
theorem follows_valueOf (name : String) (location : Option Location) :
    Follows R (valueOf name location) (valueOf name location) := by
  refine .read fun table table' htables => ?_
  rw [hR.length_eq htables]
  exact hR.follows_valueWithin _ _ name location

/-- Expressions are evaluated in step. -/
theorem follows_evaluate (e : Expr) (here : Option Int) :
    Follows R (evaluate e here) (evaluate e here) :=
  .read fun _ _ htables =>
    e.follows_fold (hR.accepts htables) here (hR.follows_resolveWith hR.follows_valueOf)

/-- So are all constants. -/
theorem follows_resolveEach (symbols : List Symbol) :
    Follows R (resolveEach symbols) (resolveEach symbols) := by
  induction symbols with
  | nil => exact .ret ()
  | cons symbol rest ih =>
      unfold resolveEach
      split
      · exact (hR.follows_valueOf _ _).bind fun _ => ih
      · exact ih

/-- The places of literals are values that are kept. -/
theorem placePool (hpool : ∀ {table table'}, R table table' → ∀ pool,
      R { table with pool } { table' with pool })
    {table table' : SymbolTable} (h : R table table') (heq : table'.pool = table.pool) (base : Int) :
    R (table.placePool base) (table'.placePool base) := by
  -- by induction on the literals, whose addresses are stored one after the other
  have hsettle : ∀ (literals : List Literal) {table table' : SymbolTable}, R table table' →
      R (table.settle literals) (table'.settle literals) := by
    intro literals
    induction literals with
    | nil => exact fun h => h
    | cons literal rest ih =>
        intro table table' h
        unfold settle
        split
        · cases literal.address with
          | none => exact ih h
          | some address => exact ih (hR.setValue h literal.name address)
        · exact h
  unfold SymbolTable.placePool
  rw [heq]
  exact hsettle _ (hpool h _)

end Lookup

/-- A table follows itself, and keeps what no value that is kept can change. -/
theorem lookup_of_invariant {Inv : SymbolTable → Prop}
    (hset : ∀ {table}, Inv table → ∀ name value, Inv (table.setValue name value)) :
    Lookup fun table table' => table = table' ∧ Inv table where
  accepts h := h.1 ▸ .refl _
  bindings_eq h := by rw [h.1]
  length_eq h := by rw [h.1]
  find?_eq h _ := by rw [h.1]
  setValue h name value := ⟨by rw [h.1], hset h.2 name value⟩

/-! ## Tables in use -/

/-- Related tables give the same answers, and have room for the same symbols and literals. -/
structure Simulation (R : SymbolTable → SymbolTable → Prop) : Prop where
  accepts : ∀ {table table'}, R table table' → table.arith.Accepts table'.arith
  pool_eq : ∀ {table table'}, R table table' → table'.pool = table.pool
  withPool : ∀ {table table'}, R table table' → ∀ pool, R { table with pool } { table' with pool }
  define : ∀ {symbol : Symbol}, (symbol.kind = .constant → symbol.value = none) →
    ∀ {table table' defined}, R table table' → table.define symbol = .ok defined →
      ∃ defined', table'.define symbol = .ok defined' ∧ R defined defined'
  valueOf : ∀ name location, Follows R (valueOf name location) (valueOf name location)
  evaluate : ∀ e here, Follows R (evaluate e here) (evaluate e here)

namespace Simulation

variable (hR : Simulation R)

include hR

/-- Definitions without a stored value are made in step. -/
theorem follows_define {symbol : Symbol} (hsymbol : symbol.kind = .constant → symbol.value = none) :
    Follows R (update (·.define symbol)) (update (·.define symbol)) :=
  .update fun _ _ _ htables hdefine => hR.define hsymbol htables hdefine

/-- So are those of literals. -/
theorem follows_defineLiteral (value : Int) :
    Follows R (update (·.defineLiteral value)) (update (·.defineLiteral value)) := by
  refine .update fun table table' defined htables hdefine => ?_
  obtain ⟨hwritable, hdefine⟩ := defineLiteral_eq_ok.mp hdefine
  obtain ⟨defined', hdefine', hdefined⟩ := hR.define (by simp) htables hdefine
  exact ⟨defined', defineLiteral_eq_ok.mpr ⟨hwritable, hdefine'⟩, hdefined⟩

/-- Literals are interned in step. -/
theorem follows_intern (value : Int) : Follows R (intern value) (intern value) := by
  refine .read fun table table' htables => ?_
  rw [hR.pool_eq htables]
  refine Follows.bind (.lift fun _ => (hR.accepts htables).toCell) fun cell => ?_
  refine Follows.bind (.store (hR.withPool htables _)) fun _ => ?_
  -- the literal that is given back is looked up in the pool, which both tables share
  have hlast : Follows R
      (do pure (((← get).pool.find? cell).getD ⟨cell, none, 0⟩))
      (do pure (((← get).pool.find? cell).getD ⟨cell, none, 0⟩)) := by
    refine .read fun table table' htables => ?_
    rw [hR.pool_eq htables]
    exact .ret _
  by_cases hnew : (!table.pool.contains cell) = true
  · rw [if_pos hnew]
    exact (hR.follows_defineLiteral cell).bind fun _ => hlast
  · rw [if_neg hnew]
    exact hlast

end Simulation

/-- Nothing changes the arithmetic of a table. -/
theorem simulation_arith (arith : Arithmetic) :
    Simulation fun table table' => table = table' ∧ table.arith = arith := by
  have hlookup : Lookup fun table table' => table = table' ∧ table.arith = arith :=
    lookup_of_invariant fun harith _ _ => harith
  refine ⟨hlookup.accepts, ?_, ?_, ?_, hlookup.follows_valueOf, hlookup.follows_evaluate⟩
  · rintro table _ ⟨rfl, -⟩
    rfl
  · rintro table _ ⟨rfl, harith⟩ pool
    exact ⟨rfl, harith⟩
  · rintro symbol - table _ defined ⟨rfl, harith⟩ hdefine
    refine ⟨defined, hdefine, rfl, ?_⟩
    rw [(define_eq_ok.mp hdefine).2, harith]

/-- What may be followed with the arithmetic fixed does not change it. -/
theorem arith_of_follows {α : Type} {m : Folding SymbolTable α} {table table' : SymbolTable} {a : α}
    (hm : Follows (fun first second => first = second ∧ first.arith = table.arith) m m)
    (h : Yields m table a table') : table'.arith = table.arith := by
  obtain ⟨_, -, -, harith⟩ := hm table table a table' ⟨rfl, rfl⟩ h
  exact harith

end SymbolTable

/-! ## The first pass -/

namespace Layout

open SymbolTable

/-- A larger limit accepts what a smaller one does. -/
theorem checkSize_mono {limit limit' size : Int} (hlimit : limit ≤ limit') {u : Unit}
    (h : checkSize limit size = .ok u) : checkSize limit' size = .ok u := by
  have hle := le_of_checkSize h
  unfold checkSize
  rw [if_neg (by omega)]

/-- A wider cell takes what a narrower one does. -/
theorem checkWidth_mono {width width' : Width} (hbits : width.bits ≤ width'.bits) {name : String}
    {size : DataSize} {location : Location} {u : Unit}
    (h : checkWidth width name size location = .ok u) :
    checkWidth width' name size location = .ok u := by
  unfold checkWidth at h ⊢
  split at h
  · cases h
  · rw [if_neg (by omega)]

variable {R : SymbolTable → SymbolTable → Prop} (hR : Simulation R)

include hR

/-- Bodies are measured in step. -/
theorem follows_bodySize (body : Body) (location : Location) :
    Follows R (bodySize body location) (bodySize body location) := by
  refine .read fun table table' htables => ?_
  have hcheck : ∀ {name size}, ∀ u : Unit,
      checkWidth table.arith.width name size location = .ok u →
      checkWidth table'.arith.width name size location = .ok u :=
    fun _ => checkWidth_mono (hR.accepts htables).bits_le
  cases body with
  | operation op => exact .ret _
  | data size values => exact Follows.bind (.lift hcheck) fun _ => .ret _
  | reserve size count =>
      refine Follows.bind (.lift hcheck) fun _ => (hR.evaluate count none).bind fun cells => ?_
      -- a negative count is refused by both
      by_cases hneg : cells < 0
      · simp only [if_pos hneg]
        exact .fail _
      · simp only [if_neg hneg]
        exact .ret _

/-- Constants are defined in step. -/
theorem follows_defineConstants (statements : List Statement) :
    Follows R (defineConstants statements) (defineConstants statements) := by
  induction statements with
  | nil => exact .ret ()
  | cons statement rest ih =>
      cases statement with
      | constant keyword name value location =>
          exact (hR.follows_define fun _ => rfl).bind fun _ => ih
      | label name location => exact ih
      | item body location => exact ih

theorem follows_defineLabels (address : Nat) (labels : List (String × Location)) :
    Follows R (defineLabels address labels) (defineLabels address labels) := by
  induction labels with
  | nil => exact .ret ()
  | cons label rest ih => exact (hR.follows_define (by simp)).bind fun _ => ih

/-- A larger limit accepts what a smaller one does. -/
theorem follows_placeItems {limit limit' : Int} (hlimit : limit ≤ limit') (address : Nat)
    (pending : List (String × Location)) (statements : List Statement) :
    Follows R (placeItems limit address pending statements)
      (placeItems limit' address pending statements) := by
  induction statements generalizing address pending with
  | nil => exact (follows_defineLabels hR address pending).bind fun _ => .ret _
  | cons statement rest ih =>
      cases statement with
      | label name location => exact ih address _
      | constant keyword name value location => exact ih address _
      | item body location =>
          refine (follows_bodySize hR body location).bind fun size => ?_
          refine (follows_defineLabels hR address pending).bind fun _ => ?_
          refine Follows.bind (.lift fun _ => checkSize_mono hlimit) fun _ => ?_
          exact (ih (address + size) []).bind fun _ => .ret _

end Layout

/-- What a program mentions is noted beside what has been noted before, and nothing else matters. -/
theorem Assembly.noteMentions_congr {table table' : SymbolTable}
    (h : table'.mentioned = table.mentioned) (statements : List Statement) :
    noteMentions table' statements =
      { table' with mentioned := (noteMentions table statements).mentioned } := by
  unfold noteMentions
  -- whether a name is noted depends on what has been noted before, and on nothing else
  induction mentions statements generalizing table table' with
  | nil =>
      rw [List.foldl_nil, List.foldl_nil, ← h]
  | cons first rest ih =>
      obtain ⟨name, place⟩ := first
      have hfirst : table'.mention name place =
          { table' with mentioned := (table.mention name place).mentioned } := by
        unfold SymbolTable.mention
        rw [h]
        by_cases hknown : (OrderedMap.get? table.mentioned name).isSome = true
        · rw [if_pos hknown, if_pos hknown, ← h]
        · rw [if_neg hknown, if_neg hknown]
      have hmentioned : (table'.mention name place).mentioned =
          (table.mention name place).mentioned := by rw [hfirst]
      rw [List.foldl_cons, List.foldl_cons]
      refine (ih hmentioned).trans ?_
      rw [hfirst]

/-! ## The second pass -/

section SecondPass

open SymbolTable

variable {R : SymbolTable → SymbolTable → Prop} (hR : Simulation R)

include hR

/-- The operand to be read is lowered in step. -/
theorem Operand.follows_lowerRead (here : Int) (operand : Operand) :
    Follows R (operand.lowerRead here) (operand.lowerRead here) := by
  unfold lowerRead
  cases operand.access with
  | temp field => exact .ret _
  | immediate value => exact (hR.evaluate value _).bind fun _ => .ret _
  | memory address => exact (hR.evaluate address _).bind fun _ => .ret _

/-- So is the one to be written. -/
theorem Operand.follows_lowerWrite (here : Int) (operand : Operand) :
    Follows R (operand.lowerWrite here) (operand.lowerWrite here) := by
  unfold lowerWrite
  cases operand.access with
  | temp field => exact .ret _
  | immediate value => exact (hR.evaluate value _).bind fun _ => .fail _
  | memory address => exact (hR.evaluate address _).bind fun _ => .ret _

/-- So is the target of a jump. -/
theorem Operand.follows_lowerTarget (here : Int) (operand : Operand) :
    Follows R (operand.lowerTarget here) (operand.lowerTarget here) := by
  unfold lowerTarget
  cases operand.access with
  | temp field => exact .ret _
  | immediate place | memory place => exact (hR.evaluate place _).bind fun _ => .ret _

/-- So is what is added. -/
theorem Operand.follows_lowerAddend (here : Int) (operand : Operand) :
    Follows R (operand.lowerAddend here) (operand.lowerAddend here) := by
  unfold lowerAddend
  cases operand.access with
  | temp field => exact .fail _
  | immediate value => exact hR.evaluate value _
  | memory address => exact (hR.evaluate address _).bind fun _ => .fail _

namespace Operation

/-- The addition of a constant is put out in step. -/
theorem follows_addConstantSlots (base : Int) (location : Location) (dst : Slot) (addend : Int) :
    Follows R (addConstantSlots base location dst addend)
      (addConstantSlots base location dst addend) :=
  .read fun _ _ htables => Follows.bind (.lift fun _ => (hR.accepts htables).toCell) fun _ => .ret _

/-- So are the slots of every operation. -/
theorem follows_slots (op : Operation) (base : Int) (location : Location) :
    Follows R (op.slots base location) (op.slots base location) := by
  cases op with
  | hlt => exact .ret _
  | jmp target => exact (target.follows_lowerTarget hR _).bind fun _ => .ret _
  | sub dst src | mov dst src | addR dst src =>
      exact (dst.follows_lowerWrite hR _).bind fun _ =>
        (src.follows_lowerRead hR _).bind fun _ => .ret _
  | addC dst addend =>
      exact (dst.follows_lowerWrite hR _).bind fun _ =>
        (addend.follows_lowerAddend hR _).bind fun _ => follows_addConstantSlots hR _ _ _ _
  | add dst src =>
      refine (dst.follows_lowerWrite hR _).bind fun _ =>
        (src.follows_lowerRead hR _).bind fun src => ?_
      -- how an addition is put out depends on the source, which both have read alike
      cases src with
      | literal value => exact follows_addConstantSlots hR _ _ _ _
      | address _ | temp _ => exact .ret _
  | subleq a b target | je a b target =>
      exact (a.follows_lowerRead hR _).bind fun _ => (b.follows_lowerRead hR _).bind fun _ =>
        (target.follows_lowerTarget hR _).bind fun _ => .ret _

/-- Their literals are interned in step. -/
theorem follows_internSlots (slots : List Slot) :
    Follows R (internSlots slots) (internSlots slots) := by
  induction slots with
  | nil => exact .ret ()
  | cons slot rest ih =>
      cases slot with
      | literal value => exact (hR.follows_intern value).bind fun _ => ih
      | address _ | temp _ => exact ih

/-- So an operation is expanded in step. -/
theorem follows_expand (op : Operation) (base : Int) (location : Location) :
    Follows R (op.expand base location) (op.expand base location) :=
  (op.follows_slots hR base location).bind fun _ =>
    (follows_internSlots hR _).bind fun _ => .ret _

end Operation

namespace Datum

/-- A datum gives its cells in step. -/
theorem follows_cells (size : DataSize) (location : Location) (here : Int) (datum : Datum) :
    Follows R (datum.cells size location here) (datum.cells size location here) := by
  cases datum with
  | text t =>
      refine .read fun table table' htables => .lift fun cells hcells => ?_
      rw [mapM_eq_ok] at hcells ⊢
      exact hcells.imp fun _ _ => (hR.accepts htables).toCell
  | value e =>
      refine (hR.evaluate e _).bind fun value => ?_
      by_cases hrange : value < (range size).1 ∨ (range size).2 < value
      · simp only [if_pos hrange]
        exact .fail _
      · simp only [if_neg hrange]
        exact .ret _

/-- So do all data of a directive. -/
theorem follows_cellsOf (size : DataSize) (location : Location) (here : Int)
    (values : List Datum) :
    Follows R (cellsOf size location here values) (cellsOf size location here values) := by
  induction values with
  | nil => exact .ret _
  | cons datum rest ih =>
      exact (datum.follows_cells hR size location here).bind fun _ => ih.bind fun _ => .ret _

end Datum

namespace Item

/-- An item has its content in step. -/
theorem follows_content (item : Item) : Follows R item.content item.content := by
  unfold content Body.content
  cases item.body with
  | operation op => exact (op.follows_expand hR _ _).bind fun _ => .ret _
  | data size values => exact (Datum.follows_cellsOf hR _ _ _ values).bind fun _ => .ret _
  | reserve size count => exact (hR.evaluate count _).bind fun _ => .ret _

theorem follows_contents (items : List Item) : Follows R (contents items) (contents items) := by
  induction items with
  | nil => exact .ret _
  | cons item rest ih => exact (item.follows_content hR).bind fun _ => ih.bind fun _ => .ret _

end Item

/-! ## Storage -/

namespace Layout

/-- The layouts are the same, and the tables are related. -/
def WithTables (R : SymbolTable → SymbolTable → Prop) (placed placed' : Layout × SymbolTable) :
    Prop :=
  placed'.1 = placed.1 ∧ R placed.2 placed'.2

/-- Temp fields are defined in step. -/
theorem follows_defineTemps (address : Int) (temps : List Temp) :
    Follows (WithTables R) (defineTemps address temps) (defineTemps address temps) := by
  induction temps generalizing address with
  | nil => exact .ret ()
  | cons field rest ih =>
      refine Follows.bind (.update fun placed placed' defined hplaced h => ?_) fun _ =>
        ih (address + 1)
      obtain ⟨layout, table⟩ := placed
      obtain ⟨_, table'⟩ := placed'
      obtain ⟨rfl, htables⟩ := hplaced
      obtain ⟨table₁, hdefine, heq⟩ := bind_eq_ok.mp h
      cases heq
      obtain ⟨table₁', hdefine', htables₁⟩ := hR.define (by simp) htables hdefine
      exact ⟨(_, table₁'), bind_eq_ok.mpr ⟨table₁', hdefine', rfl⟩, rfl, htables₁⟩

/-- The storage of related tables is the same if their pools may be placed. -/
theorem follows_placeStorage
    (hplace : ∀ {table table'}, R table table' → ∀ base,
      R (table.placePool base) (table'.placePool base))
    {limit limit' : Int} (hlimit : limit ≤ limit') :
    Follows (WithTables R) (placeStorage limit) (placeStorage limit') := by
  refine .read fun placed placed' hplaced => ?_
  obtain ⟨layout, table⟩ := placed
  obtain ⟨_, table'⟩ := placed'
  obtain ⟨rfl, htables⟩ := hplaced
  -- the end of the pool depends on the pool only
  have hend : ∀ base, table'.poolEnd base = table.poolEnd base := by
    intro base
    unfold SymbolTable.poolEnd
    rw [hR.pool_eq htables]
  simp only [SymbolTable.run_place, hend]
  refine Follows.bind (.store ⟨rfl, hplace htables _⟩) fun _ => ?_
  refine Follows.bind (.lift fun _ h => h) fun tempBase => ?_
  refine Follows.bind (.change ?_) fun _ => (follows_defineTemps hR _ _).bind fun _ => ?_
  · rintro ⟨layout, table⟩ ⟨_, table'⟩ ⟨rfl, htables⟩
    exact ⟨rfl, htables⟩
  refine Follows.bind (.change ?_) fun _ => ?_
  · rintro ⟨layout, table⟩ ⟨_, table'⟩ ⟨rfl, htables⟩
    exact ⟨rfl, htables⟩
  · exact Follows.bind (.lift fun _ => checkSize_mono hlimit) fun _ => .ret _

end Layout

/-! ## Rows -/

/-- A slot is resolved in step. -/
theorem Slot.follows_resolve (slot : Slot) : Follows R slot.resolve slot.resolve := by
  cases slot with
  | literal value =>
      refine .read fun table table' htables => .lift fun _ hok => ?_
      rwa [hR.pool_eq htables]
  | address value => exact .ret value
  | temp field => exact hR.valueOf field.name none

theorem Triple.follows_resolve (triple : Triple) : Follows R triple.resolve triple.resolve :=
  (triple.a.follows_resolve hR).bind fun _ => (triple.b.follows_resolve hR).bind fun _ =>
    (triple.c.follows_resolve hR).bind fun _ => .ret _

namespace Assembly

/-- Triples are shown in step. -/
theorem follows_tripleRows (item : Item) (op : Operation) (triples : List Triple) :
    Follows R (tripleRows item op triples) (tripleRows item op triples) := by
  induction triples with
  | nil => exact .ret _
  | cons triple rest ih => exact (triple.follows_resolve hR).bind fun _ => ih.bind fun _ => .ret _

/-- So is an item. -/
theorem follows_itemRows (item : Item) (content : Content) :
    Follows R (itemRows item content) (itemRows item content) := by
  cases content with
  | code op triples => exact follows_tripleRows hR item op triples
  | cells cells => exact .ret _

/-- So are all items. -/
theorem follows_itemsRows (contents : List (Item × Content)) :
    Follows R (itemsRows contents) (itemsRows contents) := by
  induction contents with
  | nil => exact .ret _
  | cons pair rest ih =>
      exact (follows_itemRows hR pair.1 pair.2).bind fun _ => ih.bind fun _ => .ret _

end Assembly

end SecondPass

end Subleq
