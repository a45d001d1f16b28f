import Subleq.Proofs.Constants

/-!
# Folding with a stack

`SymbolTable.valueWithin` is given the constants that are being folded, and a number of rounds.  The
same values can be had from a table that keeps a stack of these constants itself: a call pushes the
constant that it folds, calls itself for the names of the definition, and takes the constant off the
stack again, whatever has come of it (`Resolver.call`).  Such a call has no bound on its depth.

`Resolver.within` lets calls go to a given depth, where some other computation takes over.  A call
with an empty stack never gets there if the depth is more than the number of symbols, since the
constants on the stack are different ones.  It has the result of `SymbolTable.valueOf`, and leaves
an empty stack (`SymbolTable.Query.run_call`).
-/

namespace Subleq

/-! ## Computations that agree -/

namespace Folding

variable {σ τ α β : Type}

/-- Two computations over different states agree: from related states on they have the same result,
or the same fault, and leave related states. -/
def Agrees (R : σ → τ → Prop) (m : Folding σ α) (m' : Folding τ α) : Prop :=
  ∀ s t, R s t → ∃ result s' t', m.run s = (result, s') ∧ m'.run t = (result, t') ∧ R s' t'

namespace Agrees

variable {R : σ → τ → Prop}

/-- Pure answers agree. -/
theorem ret (a : α) : Agrees R (pure a) (pure a) := fun s t h => ⟨.ok a, s, t, rfl, rfl, h⟩

/-- So do refusals with the same fault. -/
theorem refuse (fault : Fault) :
    Agrees R (throw fault : Folding σ α) (throw fault : Folding τ α) :=
  fun s t h => ⟨.error fault, s, t, rfl, rfl, h⟩

/-- So do results that the state plays no part in. -/
theorem lift (x : Except Fault α) : Agrees R (liftM x) (liftM x) := by
  cases x with
  | error fault => exact refuse fault
  | ok a => exact ret a

/-- Actions that agree may be put one after the other. -/
theorem bind {m : Folding σ α} {m' : Folding τ α} {f : α → Folding σ β} {f' : α → Folding τ β}
    (hm : Agrees R m m') (hf : ∀ a, Agrees R (f a) (f' a)) : Agrees R (m >>= f) (m' >>= f') := by
  intro s t h
  obtain ⟨result, s', t', hrun, hrun', hstates⟩ := hm s t h
  rw [run_bind, run_bind, hrun, hrun']
  cases result with
  | error fault => exact ⟨.error fault, s', t', rfl, rfl, hstates⟩
  | ok a => exact hf a s' t' hstates

/-- Both computations look at their states first. -/
theorem read {f : σ → Folding σ α} {f' : τ → Folding τ α}
    (h : ∀ s t, R s t → Agrees R (f s) (f' t)) : Agrees R (get >>= f) (get >>= f') :=
  fun s t hst => h s t hst s t hst

end Agrees

end Folding

open Folding

/-- Expressions whose names have values that agree have values that agree. -/
theorem Expr.agrees_fold {σ τ : Type} {R : σ → τ → Prop} (arith : Arithmetic) (here : Option Int)
    {resolve : String → Option Location → Folding σ Int}
    {resolve' : String → Option Location → Folding τ Int} (e : Expr)
    (h : ∀ name ∈ e.mentions, ∀ location,
      Agrees R (resolve name location) (resolve' name location)) :
    Agrees R (e.fold arith resolve here) (e.fold arith resolve' here) := by
  -- by induction on the expression, which looks at the state only where it mentions a name
  induction e with
  | num value location => exact .lift _
  | sym name location => exact h name (List.mem_singleton_self name) location
  | here location =>
      cases here with
      | none => exact .refuse _
      | some position => exact .ret _
  | un op operand location ih =>
      refine (ih h).bind fun value => ?_
      cases op with
      | minus | complement => exact .lift _
      | plus | inert _ => exact .ret _
  | bin op left right ihl ihr =>
      refine (ihl fun name hmem => h name (List.mem_append_left _ hmem)).bind fun x => ?_
      refine (ihr fun name hmem => h name (List.mem_append_right _ hmem)).bind fun y => ?_
      cases op.apply arith.width x y with
      | error cause => exact .refuse _
      | ok result => exact .lift _

/-- A table after the definition of a constant has been folded: a value is kept. -/
def SymbolTable.afterFolding (table : SymbolTable) (name : String) :
    Except Fault Int → SymbolTable
  | .ok value => table.setValue name value
  | .error _ => table

/-- A constant is folded from its definition, and its value is stored afterwards. -/
theorem SymbolTable.run_foldConstant {value : String → Option Location → Folding SymbolTable Int}
    {symbol : Symbol} {definition : Expr} {table last : SymbolTable} {result : Except Fault Int}
    (hdef : symbol.definition = some definition)
    (h : (definition.fold table.arith (resolveWith value) none).run table = (result, last)) :
    (foldConstant value symbol).run table = (result, last.afterFolding symbol.name result) := by
  rw [foldConstant, hdef]
  show ExceptT.run (definition.fold table.arith (resolveWith value) none >>= _) table = _
  rw [run_bind, h]
  cases result with
  | error fault => rfl
  | ok value => rfl

/-! ## Calls with a stack -/

/-- A table, and the constants that are being folded, the outermost first. -/
structure Resolver where
  table : SymbolTable
  folding : List String

namespace Resolver

/-- Begins to fold a constant. -/
def push (name : String) (s : Resolver) : Resolver := { s with folding := s.folding ++ [name] }

/-- Ends the folding of the constant that was begun last. -/
def pop (s : Resolver) : Resolver := { s with folding := s.folding.dropLast }

/-- Keeps the value of a constant. -/
def keep (name : String) (value : Int) (s : Resolver) : Resolver :=
  { s with table := s.table.setValue name value }

def resolveWith (self : String → Option Location → Folding Resolver Int) (name : String)
    (location : Option Location) : Folding Resolver Int := do
  match OrderedMap.get? (← get).table.bindings name with
  | some bound => pure bound
  | none => self name location

/-- Folds a constant, which is on the stack for as long as that takes. -/
def foldConstant (self : String → Option Location → Folding Resolver Int) (symbol : Symbol) :
    Folding Resolver Int := do
  match symbol.definition with
  | none => throw (.noDefinition symbol.name)
  | some definition =>
      modify (push symbol.name)
      let result ←
        try definition.fold (← get).table.arith (resolveWith self) none
        finally modify pop
      modify (keep symbol.name result)
      pure result

/-- One call for the value of a name, which makes further calls by `self`. -/
def call (self : String → Option Location → Folding Resolver Int) (name : String)
    (location : Option Location) : Folding Resolver Int := do
  let s ← get
  match s.table.find? name with
  | none => throw (s.table.undefined name location)
  | some symbol =>
      match symbol.value with
      | some value => pure value
      | none =>
          if symbol.kind ≠ .constant then throw (SymbolTable.unplaced name location)
          else if s.folding.contains name then throw (SymbolTable.circular s.folding symbol)
          else foldConstant self symbol

/-- Calls down to a depth, where `bottom` takes over. -/
def within (bottom : String → Option Location → Folding Resolver Int) : (depth : Nat) → String →
    Option Location → Folding Resolver Int
  | 0 => bottom
  | depth + 1 => call (within bottom depth)

def evaluate (self : String → Option Location → Folding Resolver Int) (e : Expr)
    (here : Option Int) : Folding Resolver Int := do
  e.fold (← get).table.arith (resolveWith self) here

/-- Asks for the values of those of the given symbols that are constants. -/
def resolveEach (self : String → Option Location → Folding Resolver Int) :
    List Symbol → Folding Resolver Unit
  | [] => pure ()
  | symbol :: rest => do
      if symbol.kind = .constant then
        let _ ← self symbol.name symbol.location
      resolveEach self rest

/-! ## The depth of the stack -/

/-- Different constants are being folded, and there is room for as many calls as are left. -/
structure Stack (names : List String) (rounds : Nat) (folding : List String) : Prop where
  rounds_eq : rounds + folding.length = names.length + 1
  nodup : folding.Nodup
  subset : folding ⊆ names

namespace Stack

variable {names folding : List String} {rounds : Nat} {name : String}

/-- At the start no constant is being folded, and there is a round for each name and one more. -/
theorem nil (names : List String) : Stack names (names.length + 1) [] :=
  ⟨rfl, List.nodup_nil, List.nil_subset names⟩

/-- A round is used up for each name that is being folded. -/
theorem push (h : Stack names (rounds + 1) folding) (hnew : name ∉ folding) (hmem : name ∈ names) :
    Stack names rounds (folding ++ [name]) := by
  refine ⟨?_, ?_, ?_⟩
  · have hrounds := h.rounds_eq
    rw [List.length_append, List.length_singleton]
    omega
  · rw [List.nodup_append_comm]
    exact List.nodup_cons.mpr ⟨hnew, h.nodup⟩
  · exact List.append_subset.mpr ⟨h.subset, List.cons_subset.mpr ⟨hmem, List.nil_subset _⟩⟩

/-- There is always a call left, since there are no more constants than names. -/
theorem exists_rounds (h : Stack names rounds folding) : ∃ rounds', rounds = rounds' + 1 := by
  have hle := (h.nodup.subperm h.subset).length_le
  have hrounds := h.rounds_eq
  exact ⟨rounds - 1, by omega⟩

end Stack

/-! ## A call has the result of a table without a stack -/

/-- A table with names, and the same table with a stack. -/
def Stacked (names folding : List String) (table : SymbolTable) (s : Resolver) : Prop :=
  s = ⟨table, folding⟩ ∧ table.symbols.map Symbol.name = names

variable {names folding : List String}

/-- Look-ups agree if the values do. -/
theorem agrees_resolveWith {value : String → Option Location → Folding SymbolTable Int}
    {self : String → Option Location → Folding Resolver Int} {name : String}
    {location : Option Location}
    (h : Agrees (Stacked names folding) (value name location) (self name location)) :
    Agrees (Stacked names folding) (SymbolTable.resolveWith value name location)
      (resolveWith self name location) := by
  refine .read fun table s hs => ?_
  obtain ⟨rfl, -⟩ := hs
  cases OrderedMap.get? table.bindings name with
  | some bound => exact .ret bound
  | none => exact h

/-- The constant is taken off the stack in any case. -/
theorem run_foldConstant {self : String → Option Location → Folding Resolver Int} {symbol : Symbol}
    {definition : Expr} {s last : Resolver} {result : Except Fault Int}
    (hdef : symbol.definition = some definition)
    (h : (definition.fold s.table.arith (resolveWith self) none).run (s.push symbol.name) =
      (result, last)) :
    (foldConstant self symbol).run s =
      (result, ⟨last.table.afterFolding symbol.name result, last.folding.dropLast⟩) := by
  rw [foldConstant, hdef]
  have hfold : (do definition.fold (← get).table.arith (resolveWith self) none :
      Folding Resolver Int).run (s.push symbol.name) = (result, last) := h
  show ExceptT.run (tryFinally (do definition.fold (← get).table.arith (resolveWith self) none)
    (modify pop) >>= _) (s.push symbol.name) = _
  rw [run_bind, run_tryFinally, hfold]
  cases result with
  | error fault => rfl
  | ok value => rfl

/-- Constants are folded alike, if the values that they refer to agree while they are being
folded. -/
theorem agrees_foldConstant {value : String → Option Location → Folding SymbolTable Int}
    {self : String → Option Location → Folding Resolver Int} {symbol : Symbol}
    (h : ∀ name location,
      Agrees (Stacked names (folding ++ [symbol.name])) (value name location)
        (self name location)) :
    Agrees (Stacked names folding) (SymbolTable.foldConstant value symbol)
      (foldConstant self symbol) := by
  cases hdef : symbol.definition with
  | none =>
      rw [SymbolTable.foldConstant, foldConstant, hdef]
      exact .refuse _
  | some definition =>
      rintro table _ ⟨rfl, hnames⟩
      -- the name is on the stack while its definition is being folded
      obtain ⟨result, last, _, hfold, hfold', rfl, hlast⟩ := definition.agrees_fold table.arith none
        (fun name _ location => agrees_resolveWith (h name location)) table
        (push symbol.name ⟨table, folding⟩) ⟨rfl, hnames⟩
      refine ⟨_, _, _, SymbolTable.run_foldConstant hdef hfold, run_foldConstant hdef hfold', ?_, ?_⟩
      -- it is taken off again
      · rw [List.dropLast_concat]
      · cases result with
        | error fault => exact hlast
        | ok value => exact (SymbolTable.names_setValue ..).trans hlast

/-- Calls never get to the bottom, since the constants that are being folded are different ones. -/
theorem agrees_within (bottom : String → Option Location → Folding Resolver Int) (depth : Nat)
    {folding : List String} (hstack : Stack names depth folding) (name : String)
    (location : Option Location) :
    Agrees (Stacked names folding) (SymbolTable.valueWithin depth folding name location)
      (within bottom depth name location) := by
  -- by induction on the depth; there is a round for every name that is not on the stack yet
  induction depth generalizing folding name location with
  | zero =>
      obtain ⟨_, hdepth⟩ := hstack.exists_rounds
      cases hdepth
  | succ depth ih =>
      refine .read fun table s hs => ?_
      obtain ⟨rfl, hnames⟩ := hs
      cases hfind : table.find? name with
      | none => exact .refuse _
      | some symbol =>
          have hmem : name ∈ names := hnames ▸ SymbolTable.mem_names_of_find? hfind
          obtain rfl := SymbolTable.name_of_find? hfind
          simp only
          cases symbol.value with
          | some value => exact .ret value
          | none =>
              simp only
              by_cases hkind : symbol.kind ≠ .constant
              · rw [if_pos hkind, if_pos hkind]
                exact .refuse _
              · rw [if_neg hkind, if_neg hkind]
                -- a name that is on the stack already is circular for both
                by_cases hfolding : folding.contains symbol.name = true
                · rw [if_pos hfolding, if_pos hfolding]
                  exact .refuse _
                · rw [if_neg hfolding, if_neg hfolding]
                  have hnew : symbol.name ∉ folding := by simpa using hfolding
                  exact agrees_foldConstant fun name location =>
                    ih (hstack.push hnew hmem) name location

/-- A call with an empty stack. -/
theorem agrees_valueOf (bottom : String → Option Location → Folding Resolver Int) (name : String)
    (location : Option Location) :
    Agrees (Stacked names []) (SymbolTable.valueOf name location)
      (within bottom (names.length + 1) name location) := by
  intro table s hs
  have hlength : table.symbols.length = names.length := by
    rw [← hs.2, List.length_map]
  have hwithin := agrees_within bottom (names.length + 1) (.nil names) name location table s hs
  show ∃ result _ _, ExceptT.run
    (SymbolTable.valueWithin (table.symbols.length + 1) [] name location) table = (result, _) ∧ _
  rw [hlength]
  exact hwithin

/-- Expressions are evaluated alike, with one round more than there are names. -/
theorem agrees_evaluate (bottom : String → Option Location → Folding Resolver Int) (e : Expr)
    (here : Option Int) :
    Agrees (Stacked names []) (SymbolTable.evaluate e here)
      (evaluate (within bottom (names.length + 1)) e here) := by
  refine .read fun table s hs => ?_
  obtain ⟨rfl, -⟩ := hs
  exact e.agrees_fold table.arith here fun name _ location =>
    agrees_resolveWith (agrees_valueOf bottom name location)

/-- So are all constants. -/
theorem agrees_resolveEach (bottom : String → Option Location → Folding Resolver Int)
    (symbols : List Symbol) :
    Agrees (Stacked names []) (SymbolTable.resolveEach symbols)
      (resolveEach (within bottom (names.length + 1)) symbols) := by
  induction symbols with
  | nil => exact .ret ()
  | cons symbol rest ih =>
      rw [SymbolTable.resolveEach, resolveEach]
      by_cases hkind : symbol.kind = .constant
      · rw [if_pos hkind, if_pos hkind]
        exact (agrees_valueOf bottom symbol.name symbol.location).bind fun _ => ih
      · rw [if_neg hkind, if_neg hkind]
        exact ih

end Resolver

/-! ## Questions -/

/-- What a table is asked for. -/
inductive SymbolTable.Query
  | valueOf (name : String) (location : Option Location)
  | resolveAll
  | evaluate (e : Expr) (here : Option Int)
deriving DecidableEq, Repr

namespace SymbolTable.Query

def ask : Query → Folding SymbolTable (Option Int)
  | valueOf name location => do pure (some (← SymbolTable.valueOf name location))
  | resolveAll => do
      SymbolTable.resolveAll
      pure none
  | evaluate e here => do pure (some (← SymbolTable.evaluate e here))

/-- Asks a table with a stack, where `self` gives the values of names. -/
def call (self : String → Option Location → Folding Resolver Int) :
    Query → Folding Resolver (Option Int)
  | valueOf name location => do pure (some (← self name location))
  | resolveAll => do
      Resolver.resolveEach self (← get).table.symbols
      pure none
  | evaluate e here => do pure (some (← Resolver.evaluate self e here))

/-- The answer does not depend on what would be done below a depth of more than the number of
symbols, it is the one of the table without a stack, and the stack is empty afterwards. -/
theorem run_call (query : Query) (table : SymbolTable)
    (bottom : String → Option Location → Folding Resolver Int) :
    (query.call (Resolver.within bottom (table.symbols.length + 1))).run ⟨table, []⟩ =
      ((query.ask.run table).1, ⟨(query.ask.run table).2, []⟩) := by
  have hlength : table.symbols.length = (table.symbols.map Symbol.name).length :=
    (List.length_map _).symm
  -- a table is asked with as many rounds as a stack of different names can need
  have hagrees : Agrees (Resolver.Stacked (table.symbols.map Symbol.name) []) query.ask
      (query.call (Resolver.within bottom (table.symbols.length + 1))) := by
    rw [hlength]
    cases query with
    | valueOf name location =>
        exact (Resolver.agrees_valueOf bottom name location).bind fun value => .ret (some value)
    | resolveAll =>
        refine .bind (.read fun table s hs => ?_) fun _ => .ret none
        obtain ⟨rfl, -⟩ := hs
        exact Resolver.agrees_resolveEach bottom table.symbols
    | evaluate e here =>
        exact (Resolver.agrees_evaluate bottom e here).bind fun value => .ret (some value)
  obtain ⟨result, last, _, hask, hcall, rfl, -⟩ := hagrees table ⟨table, []⟩ ⟨rfl, rfl⟩
  rw [hask, hcall]

end SymbolTable.Query

end Subleq
