import Subleq.Proofs.Pool
import Subleq.Proofs.QueryOrder

/-!
# Requests to a table

A table is asked to enter symbols, to note and to check names, to answer questions, and to count and
place literals.  A request is refused with a fault, or served with a reply; in both cases it leaves
a table, which the next request finds (`SymbolTable.results`, `SymbolTable.served`).

A definition that is refused leaves the table as it was, and so does a literal that does not fit
into a cell.  A literal whose name is taken by another symbol, or cannot be written, is refused only
after its use has been counted: it is in the pool from then on, without a symbol of its own, and the
same request is served the next time (`SymbolTable.Request.unnoticed_or_counted`).
-/

namespace Subleq

open Folding

/-! ## Literals and symbols -/

namespace Pool

variable {cell : Int} {literals : List Literal}

/-- The use of a value that is not among the first literals passes them by. -/
theorem use_append_of_notMem (h : cell ∉ literals.map Literal.value) (further : List Literal) :
    use cell (literals ++ further) = literals ++ use cell further := by
  induction literals with
  | nil => rfl
  | cons literal rest ih =>
      rw [List.map_cons, List.mem_cons, not_or] at h
      rw [List.cons_append, use, if_neg (Ne.symm h.1), ih h.2, List.cons_append]

/-- The first use of a value appends it. -/
theorem use_of_notMem (h : cell ∉ literals.map Literal.value) :
    use cell literals = literals ++ [⟨cell, none, 1⟩] := by
  simpa [use] using use_append_of_notMem h []

/-- Literals that follow others are placed behind them. -/
theorem assign_append (base : Int) (literals further : List Literal) :
    assign base (literals ++ further) =
      assign base literals ++ assign (base + literals.length) further := by
  induction literals generalizing base with
  | nil => simp [assign]
  | cons literal rest ih =>
      rw [List.cons_append, assign, assign, ih, List.cons_append, List.length_cons,
        Int.natCast_succ, Int.add_assoc, Int.add_comm 1]

/-- The address of a literal is the base and its position in the pool. -/
theorem getElem?_assign (base : Int) (literals : List Literal) (index : Nat) :
    (assign base literals)[index]? =
      literals[index]?.map fun literal => { literal with address := some (base + index) } := by
  induction literals generalizing base index with
  | nil => rfl
  | cons first rest ih =>
      rw [assign]
      cases index with
      | zero => simp
      | succ index =>
          rw [List.getElem?_cons_succ, List.getElem?_cons_succ, ih (base + 1) index]
          congr 1
          funext literal
          congr 2
          push_cast
          omega

/-- A placed literal differs from what it was by its address. -/
theorem exists_of_mem_assign {literal : Literal} {base : Int} (h : literal ∈ assign base literals) :
    ∃ old ∈ literals, literal = { old with address := literal.address } := by
  obtain ⟨index, hindex⟩ := List.mem_iff_getElem?.mp h
  rw [getElem?_assign] at hindex
  obtain ⟨old, hold, rfl⟩ := Option.map_eq_some_iff.mp hindex
  exact ⟨old, List.mem_of_getElem? hold, rfl⟩

end Pool

namespace Symbol

def valueless (symbol : Symbol) : Symbol := { symbol with value := none }

@[simp]
theorem name_valueless (symbol : Symbol) : symbol.valueless.name = symbol.name := rfl

@[simp]
theorem kind_valueless (symbol : Symbol) : symbol.valueless.kind = symbol.kind := rfl

@[simp]
theorem valueless_unfolded (symbol : Symbol) : symbol.unfolded.valueless = symbol.valueless := by
  rw [unfolded]
  split
  · rfl
  · rfl

end Symbol

namespace SymbolTable

/-! ## Requests -/

/-- What a table can be asked to do. -/
inductive Request
  | enter (symbol : Symbol)
  | define (definition : Definition)
  | mention (name : String) (location : Option Location)
  | bind (name : String) (value : Int)
  | checkMentions
  | ask (query : Query)
  | intern (value : Int)
  | place (base : Int)
deriving DecidableEq, Repr

/-- What a request that is served gives back. -/
inductive Reply
  | done
  | answer (value : Option Int)
  | literal (literal : Literal)
  | address (address : Int)
deriving DecidableEq, Repr

namespace Request

/-- Serves a request.  Placing the pool gives the first address after it. -/
def serve : Request → Folding SymbolTable Reply
  | enter symbol => do
      Folding.update (·.define symbol)
      pure .done
  | define definition => do
      Folding.update fun table => definition.enter table
      pure .done
  | mention name location => do
      modify (·.mention name location)
      pure .done
  | bind name value => do
      Folding.update (·.bind name value)
      pure .done
  | checkMentions => do
      liftM (← get).checkMentions
      pure .done
  | ask query => do pure (.answer (← query.ask))
  | intern value => do pure (.literal (← SymbolTable.intern value))
  | place base => do pure (.address (← SymbolTable.place base))

/-- The reply to a request, or the fault that it is refused with. -/
def result (request : Request) (table : SymbolTable) : Except Fault Reply :=
  (request.serve.run table).1

/-- The table that a request leaves. -/
def after (request : Request) (table : SymbolTable) : SymbolTable := (request.serve.run table).2

/-- The requests that add to a table. -/
def isUpdate : Request → Bool
  | enter _ | define _ | intern _ => true
  | mention .. | bind .. | checkMentions | ask _ | place _ => false

end Request

/-- The results of requests that are made one after the other. -/
def results (table : SymbolTable) : List Request → List (Except Fault Reply)
  | [] => []
  | request :: rest => request.result table :: (request.after table).results rest

/-- The table that requests leave. -/
def served (table : SymbolTable) (requests : List Request) : SymbolTable :=
  requests.foldl (fun table request => request.after table) table

/-! ## What a request does -/

variable {table : SymbolTable} {symbol first : Symbol} {value cell : Int} {fault : Fault}

/-- A request for a change is refused without a trace, or served. -/
theorem Request.run_serve_update {request : Request}
    {change : SymbolTable → Except Fault SymbolTable}
    (hserve : request.serve = do Folding.update change; pure .done) (table : SymbolTable) :
    (∃ fault, change table = .error fault ∧ request.serve.run table = (.error fault, table)) ∨
      ∃ table', change table = .ok table' ∧ request.serve.run table = (.ok .done, table') := by
  rw [hserve, run_bind]
  cases hchange : change table with
  | error fault =>
      rw [run_update_of_error hchange]
      exact .inl ⟨fault, rfl, rfl⟩
  | ok table' =>
      rw [run_update_of_ok hchange]
      exact .inr ⟨table', rfl, rfl⟩

/-- A name that is taken is refused with the place where it was defined. -/
theorem define_of_find? (h : table.find? symbol.name = some first) :
    table.define symbol =
      .error (.found (.duplicate symbol.name first.location) symbol.location) := by
  rw [define, h]

/-- A value that does not fit into a cell is not counted. -/
theorem run_intern_of_error (h : table.arith.toCell value none = .error fault) :
    (intern value).run table = (.error fault, table) := by
  rw [intern, run_read, h]
  rfl

/-- A value that is in the pool is counted once more. -/
theorem run_intern_of_mem (h : table.arith.toCell value none = .ok cell)
    (hmem : cell ∈ table.pool.values) :
    (intern value).run table =
      (.ok (((table.pool.intern cell).find? cell).getD ⟨cell, none, 0⟩),
        { table with pool := table.pool.intern cell }) := by
  rw [intern, run_read, h]
  show ((if !table.pool.contains cell then _ else _ : Folding SymbolTable Literal)).run _ = _
  rw [if_neg (by simpa [Pool.contains_iff] using hmem)]
  rfl

/-- A value that is not in the pool is counted, and then there is an attempt to enter it. -/
theorem run_intern_of_notMem (h : table.arith.toCell value none = .ok cell)
    (hnew : cell ∉ table.pool.values) :
    (intern value).run table =
      (do
        Folding.update (·.defineLiteral cell)
        pure (((← get).pool.find? cell).getD ⟨cell, none, 0⟩) : Folding SymbolTable Literal).run
        { table with pool := table.pool.intern cell } := by
  rw [intern, run_read, h]
  show ((if !table.pool.contains cell then _ else _ : Folding SymbolTable Literal)).run _ = _
  rw [if_pos (by simpa [← Bool.not_eq_true, Pool.contains_iff] using hnew)]

/-- A new value is entered among the symbols. -/
theorem run_intern_of_new (h : table.arith.toCell value none = .ok cell)
    (hnew : cell ∉ table.pool.values) (hwritable : Digits.isWritable cell = true)
    (hfind : table.find? (literalName cell) = none) :
    (intern value).run table =
      (.ok (((table.pool.intern cell).find? cell).getD ⟨cell, none, 0⟩),
        { table with
          symbols := table.symbols ++ [⟨literalName cell, .literal, none, none, none⟩]
          pool := table.pool.intern cell }) := by
  have hdefine : define { table with pool := table.pool.intern cell }
      ⟨literalName cell, .literal, none, none, none⟩ = .ok _ := define_eq_ok.mpr ⟨hfind, rfl⟩
  rw [run_intern_of_notMem h hnew, run_bind,
    run_update_of_ok (defineLiteral_eq_ok.mpr ⟨hwritable, hdefine⟩)]
  rfl

/-- A new value that cannot be entered is refused, but counted. -/
theorem run_intern_of_unentered (h : table.arith.toCell value none = .ok cell)
    (hnew : cell ∉ table.pool.values)
    (herror : defineLiteral { table with pool := table.pool.intern cell } cell = .error fault) :
    (intern value).run table = (.error fault, { table with pool := table.pool.intern cell }) := by
  rw [run_intern_of_notMem h hnew, run_bind, run_update_of_error herror]

/-- The cell of a value is not in the pool. -/
structure New (table : SymbolTable) (value cell : Int) : Prop where
  toCell_eq : table.arith.toCell value none = .ok cell
  notMem : cell ∉ table.pool.values

/-- The cell of a value is not in the pool, and a symbol has the name that it would get. -/
structure Taken (table : SymbolTable) (value cell : Int) (first : Symbol) : Prop extends
    table.New value cell where
  writable : Digits.isWritable cell = true
  find_eq : table.find? (literalName cell) = some first

/-- The cell of a value is not in the pool, and it has too many digits for a name. -/
structure Unnamed (table : SymbolTable) (value cell : Int) : Prop extends
    table.New value cell where
  unwritable : Digits.isWritable cell = false

/-- What a request to intern answers, and leaves. -/
theorem Request.run_serve_intern (value : Int) (table : SymbolTable) :
    (Request.intern value).serve.run table =
      (((SymbolTable.intern value).run table).1.map Reply.literal,
        ((SymbolTable.intern value).run table).2) := by
  rw [serve, run_bind]
  rcases (SymbolTable.intern value).run table with ⟨fault | literal, table'⟩
  · rfl
  · rfl

/-- What a request to place the pool answers, and leaves. -/
theorem Request.run_serve_place (base : Int) (table : SymbolTable) :
    (Request.place base).serve.run table =
      ((table.poolEnd base).map Reply.address, table.placePool base) := by
  rw [serve, run_bind, run_place]
  cases table.poolEnd base with
  | error fault => rfl
  | ok address => rfl

/-- What a request to use a literal does: it is refused at once, counts the literal, enters it, or
finds that it can have no name or that its name is taken. -/
theorem Request.intern_cases (value : Int) (table : SymbolTable) :
    (∃ fault, (Request.intern value).serve.run table = (.error fault, table)) ∨
    (∃ cell literal, table.arith.toCell value none = .ok cell ∧ cell ∈ table.pool.values ∧
      (Request.intern value).serve.run table =
        (.ok (.literal literal), { table with pool := table.pool.intern cell })) ∨
    (∃ cell literal, table.New value cell ∧ table.find? (literalName cell) = none ∧
      (Request.intern value).serve.run table =
        (.ok (.literal literal), { table with
          symbols := table.symbols ++ [⟨literalName cell, .literal, none, none, none⟩]
          pool := table.pool.intern cell })) ∨
    (∃ cell first, table.Taken value cell first) ∨ ∃ cell, table.Unnamed value cell := by
  rw [run_serve_intern]
  -- a value that is in the way of nothing is pooled; otherwise one of the two refusals is left
  cases hcell : table.arith.toCell value none with
  | error fault =>
      rw [run_intern_of_error hcell]
      exact .inl ⟨fault, rfl⟩
  | ok cell =>
      by_cases hmem : cell ∈ table.pool.values
      · rw [run_intern_of_mem hcell hmem]
        exact .inr (.inl ⟨cell, _, rfl, hmem, rfl⟩)
      · have hnew : table.New value cell := ⟨hcell, hmem⟩
        cases hwritable : Digits.isWritable cell with
        | false => exact .inr (.inr (.inr (.inr ⟨cell, hnew, hwritable⟩)))
        | true =>
            cases hfind : table.find? (literalName cell) with
            | none =>
                rw [run_intern_of_new hcell hmem hwritable hfind]
                exact .inr (.inr (.inl ⟨cell, _, hnew, hfind, rfl⟩))
            | some first =>
                exact .inr (.inr (.inr (.inl ⟨cell, first, hnew, hwritable, hfind⟩)))

/-! ## Placing the pool -/

/-- The symbols of literals that have names get their addresses one after the other. -/
theorem settle_append (table : SymbolTable) {literals : List Literal}
    (hwritable : ∀ literal ∈ literals, literal.isWritable = true) (further : List Literal) :
    table.settle (literals ++ further) = (table.settle literals).settle further := by
  induction literals generalizing table with
  | nil => rfl
  | cons literal rest ih =>
      obtain ⟨hfirst, hrest⟩ := List.forall_mem_cons.mp hwritable
      rw [List.cons_append, settle, settle, if_pos hfirst, if_pos hfirst]
      cases literal.address with
      | none => exact ih table hrest
      | some address => exact ih _ hrest

/-- Storing a value changes nothing but values. -/
theorem valueless_setValue (table : SymbolTable) (name : String) (value : Int) :
    (table.setValue name value).symbols.map Symbol.valueless =
      table.symbols.map Symbol.valueless := by
  rw [setValue, List.map_map]
  refine List.map_congr_left fun symbol _ => ?_
  rw [Function.comp_apply]
  split
  · rfl
  · rfl

/-- Literals get addresses, and nothing else changes. -/
theorem valueless_settle (table : SymbolTable) (literals : List Literal) :
    (table.settle literals).symbols.map Symbol.valueless =
      table.symbols.map Symbol.valueless := by
  induction literals generalizing table with
  | nil => rfl
  | cons literal rest ih =>
      rw [settle]
      split
      · cases literal.address with
        | none => exact ih table
        | some address => exact (ih _).trans (valueless_setValue table _ _)
      · rfl

/-- Tables that differ only in values find the same symbols, but for their values. -/
theorem find?_valueless {table table' : SymbolTable}
    (h : table'.symbols.map Symbol.valueless = table.symbols.map Symbol.valueless)
    (name : String) :
    (table'.find? name).map Symbol.valueless = (table.find? name).map Symbol.valueless := by
  have hcomp : ((·.name == name) ∘ Symbol.valueless) = fun symbol : Symbol => symbol.name == name :=
    rfl
  rw [find?, find?, ← hcomp, ← List.find?_map, ← List.find?_map, h]

/-- The last literal of a name is the one whose address counts. -/
theorem find?_settle_concat {literal : Literal} {address : Int} {literals : List Literal}
    (hwritable : ∀ other ∈ literals, other.isWritable = true) (hliteral : literal.isWritable = true)
    (haddress : literal.address = some address) (hfind : table.find? literal.name = some first) :
    (table.settle (literals ++ [literal])).find? literal.name =
      some { first with value := some address } := by
  rw [settle_append _ hwritable, settle, if_pos hliteral, haddress]
  show ((table.settle literals).setValue literal.name address).find? literal.name = _
  have hsettled := find?_valueless (valueless_settle table literals) literal.name
  rw [hfind, Option.map_some] at hsettled
  obtain ⟨symbol, hsymbol, hvalueless⟩ := Option.map_eq_some_iff.mp hsettled
  rw [find?_setValue, if_pos rfl, hsymbol, Option.map_some]
  have hsame : { symbol.valueless with value := some address } =
      { first.valueless with value := some address } := by rw [hvalueless]
  exact congrArg some hsame

/-! ## Requests that are refused -/

/-- The table with one more literal in its pool. -/
def pooling (table : SymbolTable) (literal : Literal) : SymbolTable :=
  { table with pool := { table.pool with literals := table.pool.literals ++ [literal] } }

namespace New

/-- A use that is counted is the last of the pool. -/
theorem intern_eq (h : table.New value cell) :
    ({ table with pool := table.pool.intern cell } : SymbolTable) =
      table.pooling ⟨cell, none, 1⟩ := by
  rw [Pool.intern, Pool.use_of_notMem h.notMem]
  rfl

/-- What is in the pool is served the next time, although it has no symbol. -/
theorem result_intern (h : table.New value cell) :
    (Request.intern value).result (table.pooling ⟨cell, none, 1⟩) =
      .ok (.literal ⟨cell, none, 2⟩) := by
  have hcell : (table.pooling ⟨cell, none, 1⟩).arith.toCell value none = .ok cell := h.toCell_eq
  have hmem : cell ∈ (table.pooling ⟨cell, none, 1⟩).pool.values := by
    simp [pooling, Pool.values]
  have hfind : ((table.pooling ⟨cell, none, 1⟩).pool.intern cell).find? cell =
      some ⟨cell, none, 2⟩ := by
    -- the literals before it have other values, so that it is the one that is counted and found
    rw [pooling, Pool.intern, Pool.use_append_of_notMem h.notMem, Pool.find?, List.find?_append,
      List.find?_eq_none.mpr fun literal hliteral heq =>
        h.notMem (List.mem_map.mpr ⟨literal, hliteral, eq_of_beq heq⟩)]
    simp [Pool.use]
  rw [Request.result, Request.run_serve_intern, run_intern_of_mem hcell hmem, hfind]
  rfl

end New

namespace Taken

/-- The literal is refused, but it is in the pool from then on. -/
theorem run_intern (h : table.Taken value cell first) :
    (Request.intern value).serve.run table =
      (.error (.found (.duplicate (literalName cell) first.location) none),
        table.pooling ⟨cell, none, 1⟩) := by
  have herror : defineLiteral { table with pool := table.pool.intern cell } cell =
      .error (.found (.duplicate (literalName cell) first.location) none) := by
    rw [defineLiteral, if_pos h.writable]
    exact define_of_find? h.find_eq
  rw [Request.run_serve_intern, run_intern_of_unentered h.toCell_eq h.notMem herror,
    h.toNew.intern_eq]
  rfl

/-- The symbol that has the name gets the address of the literal, which is the last one. -/
theorem place (h : table.Taken value cell first)
    (hwritable : ∀ literal ∈ table.pool.literals, literal.isWritable = true) (base : Int) :
    (Request.place base).result (table.pooling ⟨cell, none, 1⟩) =
        .ok (.address (base + table.pool.literals.length + 1)) ∧
      ((Request.place base).after (table.pooling ⟨cell, none, 1⟩)).find? (literalName cell) =
        some { first with value := some (base + table.pool.literals.length) } := by
  -- the literal that was refused a name is the last one of the pool
  have hliterals : ((table.pooling ⟨cell, none, 1⟩).pool.place base).literals =
      Pool.assign base table.pool.literals ++
        [⟨cell, some (base + table.pool.literals.length), 1⟩] := Pool.assign_append base _ _
  rw [Request.result, Request.after, Request.run_serve_place]
  constructor
  · have hend : (table.pooling ⟨cell, none, 1⟩).poolEnd base =
        .ok (base + table.pool.literals.length + 1) := by
      refine poolEnd_eq_ok.mpr ⟨List.forall_mem_append.mpr ⟨hwritable, ?_⟩, ?_⟩
      · exact List.forall_mem_singleton.mpr h.writable
      · simp [pooling, Pool.endAddress, Int.add_assoc]
    rw [hend]
    rfl
  · show (settle _ ((table.pooling ⟨cell, none, 1⟩).pool.place base).literals).find? _ = _
    rw [hliterals]
    -- the others have names of their own, so their addresses go elsewhere
    refine find?_settle_concat (fun literal hliteral => ?_) h.writable rfl h.find_eq
    obtain ⟨old, hold, heq⟩ := Pool.exists_of_mem_assign hliteral
    rw [heq]
    exact hwritable old hold

end Taken

namespace Unnamed

/-- The literal is refused, but it is in the pool from then on. -/
theorem run_intern (h : table.Unnamed value cell) :
    (Request.intern value).serve.run table =
      (.error (.excess .unwritten), table.pooling ⟨cell, none, 1⟩) := by
  have herror : defineLiteral { table with pool := table.pool.intern cell } cell =
      .error (.excess .unwritten) := by
    rw [defineLiteral, if_neg (by simp [h.unwritable])]
  rw [Request.run_serve_intern, run_intern_of_unentered h.toCell_eq h.notMem herror,
    h.toNew.intern_eq]
  rfl

/-- The pool cannot be placed from then on. -/
theorem result_place (h : table.Unnamed value cell) (base : Int) :
    (Request.place base).result (table.pooling ⟨cell, none, 1⟩) = .error (.excess .unwritten) := by
  have hend : (table.pooling ⟨cell, none, 1⟩).poolEnd base = .error (.excess .unwritten) := by
    have hlast : (⟨cell, none, 1⟩ : Literal).isWritable = false := h.unwritable
    rw [poolEnd, if_neg]
    simp [pooling, hlast]
  rw [Request.result, Request.run_serve_place, hend]
  rfl

end Unnamed

namespace Request

/-- A change that is refused leaves the table as it was. -/
theorem after_of_refused {request : Request} {change : SymbolTable → Except Fault SymbolTable}
    (hserve : request.serve = do Folding.update change; pure .done)
    (hrefused : request.result table = .error fault) : request.after table = table := by
  rcases run_serve_update hserve table with ⟨_, -, hrun⟩ | ⟨_, -, hrun⟩
  · rw [after, hrun]
  · rw [result, hrun] at hrefused
    cases hrefused

/-- A literal is refused without a trace, or because it has no name of its own. -/
theorem after_intern_or_counted (h : (intern value).result table = .error fault) :
    (intern value).after table = table ∨ (∃ cell first, table.Taken value cell first) ∨
      ∃ cell, table.Unnamed value cell := by
  rw [result] at h
  rw [after]
  rcases intern_cases value table with ⟨_, hrun⟩ | ⟨_, _, -, -, hrun⟩ | ⟨_, _, -, -, hrun⟩ |
    hcounted
  · rw [hrun]
    exact .inl rfl
  · rw [hrun] at h
    cases h
  · rw [hrun] at h
    cases h
  · exact .inr hcounted

/-- A request to add something that is refused goes unnoticed: the table is as it was before, and
so are the results of all later requests.  The one exception is a literal without a name of its own.
Such a literal is counted in the pool all the same, so that it is served the next time.  If a symbol
has its name, then this symbol gets the address of its cell when the pool is placed; if it has too
many digits for a name, then the pool cannot be placed any more. -/
theorem unnoticed_or_counted {request : Request} (hupdate : request.isUpdate = true)
    (hrefused : request.result table = .error fault) :
    (request.after table = table ∧
      ∀ later, (request.after table).results later = table.results later) ∨
    (∃ value cell first, request = .intern value ∧ table.Taken value cell first ∧
      fault = .found (.duplicate (literalName cell) first.location) none ∧
      request.after table = table.pooling ⟨cell, none, 1⟩ ∧
      request.result (request.after table) = .ok (.literal ⟨cell, none, 2⟩) ∧
      ((∀ literal ∈ table.pool.literals, literal.isWritable = true) → ∀ base,
        (Request.place base).result (request.after table) =
          .ok (.address (base + table.pool.literals.length + 1)) ∧
        ((Request.place base).after (request.after table)).find? (literalName cell) =
          some { first with value := some (base + table.pool.literals.length) })) ∨
    ∃ value cell, request = .intern value ∧ table.Unnamed value cell ∧
      fault = .excess .unwritten ∧
      request.after table = table.pooling ⟨cell, none, 1⟩ ∧
      request.result (request.after table) = .ok (.literal ⟨cell, none, 2⟩) ∧
      ∀ base, (Request.place base).result (request.after table) = .error (.excess .unwritten) := by
  -- what comes later sees nothing but the table
  have hunnoticed : request.after table = table → request.after table = table ∧
      ∀ later, (request.after table).results later = table.results later :=
    fun hafter => ⟨hafter, fun later => by rw [hafter]⟩
  cases request with
  | enter symbol => exact .inl (hunnoticed (after_of_refused rfl hrefused))
  | define definition => exact .inl (hunnoticed (after_of_refused rfl hrefused))
  | intern value =>
      rcases after_intern_or_counted hrefused with
        hafter | ⟨cell, first, htaken⟩ | ⟨cell, hunnamed⟩
      · exact .inl (hunnoticed hafter)
      · have hafter : (intern value).after table = table.pooling ⟨cell, none, 1⟩ := by
          rw [after, htaken.run_intern]
        refine .inr (.inl ⟨value, cell, first, rfl, htaken, ?_, hafter, ?_, ?_⟩)
        · rw [result, htaken.run_intern] at hrefused
          exact (Except.error.inj hrefused).symm
        · rw [hafter]
          exact htaken.toNew.result_intern
        · rw [hafter]
          exact htaken.place
      · have hafter : (intern value).after table = table.pooling ⟨cell, none, 1⟩ := by
          rw [after, hunnamed.run_intern]
        refine .inr (.inr ⟨value, cell, rfl, hunnamed, ?_, hafter, ?_, ?_⟩)
        · rw [result, hunnamed.run_intern] at hrefused
          exact (Except.error.inj hrefused).symm
        · rw [hafter]
          exact hunnamed.toNew.result_intern
        · rw [hafter]
          exact hunnamed.result_place
  | mention name location => cases hupdate
  | bind name value => cases hupdate
  | checkMentions => cases hupdate
  | ask query => cases hupdate
  | place base => cases hupdate

/-- A table with a label that has the name of a literal. -/
def labelled : SymbolTable :=
  (empty ⟨.default, false⟩).served [.define (.label "=5" 7 none)]

/-- The literal is counted, and the label moves to its cell. -/
theorem unnoticed_or_counted_labelled :
    (intern 5).isUpdate = true ∧
    (intern 5).result labelled = .error (.found (.duplicate "=5" none) none) ∧
    (intern 5).after labelled = labelled.pooling ⟨5, none, 1⟩ ∧
    (intern 5).result ((intern 5).after labelled) = .ok (.literal ⟨5, none, 2⟩) ∧
    ∀ base, (place base).result ((intern 5).after labelled) = .ok (.address (base + 1)) ∧
      (((place base).after ((intern 5).after labelled)).find? "=5").bind Symbol.value =
        some base := by
  -- the refusal is evaluated; what it leaves behind is what the theorem says
  have hrefused : (intern 5).result labelled = .error (.found (.duplicate "=5" none) none) := by
    decide +kernel
  have hpool : labelled.pool.literals = [] := by decide +kernel
  have hcell : labelled.arith.toCell 5 none = .ok 5 := by decide +kernel
  have hnoticed : (intern 5).after labelled ≠ labelled := by decide +kernel
  rcases unnoticed_or_counted rfl hrefused with ⟨hsame, -⟩ |
    ⟨value, cell, first, hrequest, htaken, -, hafter, hagain, hplace⟩ |
    ⟨_, _, -, -, hfault, -⟩
  · exact absurd hsame hnoticed
  · obtain rfl : 5 = value := by injection hrequest
    obtain rfl : 5 = cell := Except.ok.inj (hcell.symm.trans htaken.toCell_eq)
    refine ⟨rfl, hrefused, hafter, hagain, fun base => ?_⟩
    obtain ⟨hend, hfind⟩ := hplace (by rw [hpool]; exact List.forall_mem_nil _) base
    have hname : literalName 5 = "=5" := by decide +kernel
    rw [hpool, List.length_nil, Int.natCast_zero, Int.add_zero] at hend hfind
    rw [← hname, hfind]
    exact ⟨hend, rfl⟩
  · cases hfault

/-- The refused literal is noticed: it is in the pool, it is served the next time, and the label is
moved when the pool is placed. -/
theorem noticed_labelled :
    (intern 5).result labelled = .error (.found (.duplicate "=5" none) none) ∧
    labelled.pool.literals = [] ∧ ((intern 5).after labelled).pool.literals = [⟨5, none, 1⟩] ∧
    labelled.results [intern 5, place 10] =
      [.error (.found (.duplicate "=5" none) none), .ok (.address 11)] ∧
    ((intern 5).after labelled).results [intern 5, place 10] =
      [.ok (.literal ⟨5, none, 2⟩), .ok (.address 11)] ∧
    (labelled.find? "=5").bind Symbol.value = some 7 ∧
    ((((intern 5).after labelled).served [place 10]).find? "=5").bind Symbol.value = some 10 := by
  decide +kernel

end Request

end SymbolTable

end Subleq
