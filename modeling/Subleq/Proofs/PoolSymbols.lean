import Subleq.Proofs.Digits
import Subleq.Proofs.Numerals
import Subleq.Proofs.Requests

/-!
# The pool and its symbols in step

The pool and the symbols of its literals are two records of the same cells.  As long as the names of
literals are left to the table itself, and what a cell holds can be written, they agree after any
sequence of requests, refused ones included (`SymbolTable.reached_in_step`): the pool has the values
that were used, in the order of their first uses and with the number of their uses, its literals are
the symbols of that kind, and a symbol has the address of its literal.

A request does two things that have to be followed.  `SymbolTable.Tied` is about the pool and the
symbols, and `Pool.Tallies` about the pool and what has been used so far.  Two requests can break
the first.  A literal whose name is taken does not come up among tied tables, and one that has too
many digits for a name comes up in wide cells only, where it does break it
(`SymbolTable.unnamed_counted`).
-/

namespace Subleq

open Folding

/-! ## Literals -/

/-- Different values have different names. -/
theorem literalName_injective : Function.Injective literalName := fun value other h => by
  refine Numeral.toString_injective (String.toList_inj.mp ?_)
  have hlist := congrArg String.toList h
  rw [literalName, literalName, String.toList_append, String.toList_append] at hlist
  exact List.append_cancel_left hlist

namespace Pool

variable {width : Width} {cell base : Int} {uses : List Int} {pool : Pool} {literal : Literal}
  {literals : List Literal}

/-- A use counts the literal with that value, or enters it, and leaves the others alone. -/
theorem mem_use (hnodup : (literals.map Literal.value).Nodup) (h : literal ∈ use cell literals) :
    (literal ∈ literals ∧ literal.value ≠ cell) ∨
      (∃ old ∈ literals, old.value = cell ∧ literal = { old with uses := old.uses + 1 }) ∨
      (cell ∉ literals.map Literal.value ∧ literal = ⟨cell, none, 1⟩) := by
  induction literals with
  | nil => exact .inr (.inr ⟨List.not_mem_nil, List.mem_singleton.mp h⟩)
  | cons first rest ih =>
      rw [List.map_cons, List.nodup_cons] at hnodup
      rw [use] at h
      by_cases hfirst : first.value = cell
      · rw [if_pos hfirst] at h
        rcases List.mem_cons.mp h with rfl | hrest
        · exact .inr (.inl ⟨first, List.mem_cons_self, hfirst, rfl⟩)
        -- a value is pooled once, so the others are different
        · refine .inl ⟨List.mem_cons_of_mem _ hrest, fun heq => hnodup.1 ?_⟩
          rw [hfirst, ← heq]
          exact List.mem_map_of_mem hrest
      · rw [if_neg hfirst] at h
        rcases List.mem_cons.mp h with rfl | hrest
        · exact .inl ⟨List.mem_cons_self, hfirst⟩
        · rcases ih hnodup.2 hrest with ⟨hmem, hne⟩ | ⟨old, hmem, hold⟩ | ⟨hnew, rfl⟩
          · exact .inl ⟨List.mem_cons_of_mem _ hmem, hne⟩
          · exact .inr (.inl ⟨old, List.mem_cons_of_mem _ hmem, hold⟩)
          · refine .inr (.inr ⟨?_, rfl⟩)
            rw [List.map_cons, List.mem_cons, not_or]
            exact ⟨Ne.symm hfirst, hnew⟩

/-- Each value is entered once. -/
theorem nodup_eraseDups (uses : List Int) : uses.eraseDups.Nodup := by
  induction uses using List.reverseRecOn with
  | nil => exact List.nodup_nil
  | append_singleton uses value ih =>
      rw [← foldl_enter_nil, List.foldl_append, foldl_enter_nil]
      show (enter uses.eraseDups value).Nodup
      rw [enter]
      split
      · exact ih
      · next hnew =>
        rw [← List.concat_eq_append]
        exact ih.concat hnew

/-- The pool has the values that were used, in the order of their first uses, and counts the uses of
each. -/
structure Tallies (width : Width) (uses : List Int) (pool : Pool) : Prop where
  values_eq : pool.values = uses.eraseDups
  uses_eq : ∀ literal ∈ pool.literals, literal.uses = uses.count literal.value
  fits : ∀ value ∈ uses, width.Fits value

namespace Tallies

/-- Nothing has been used of the empty pool. -/
theorem empty (width : Width) : Tallies width [] Pool.empty :=
  ⟨rfl, fun _ h => absurd h List.not_mem_nil, fun _ h => absurd h List.not_mem_nil⟩

theorem nodup (h : Tallies width uses pool) : pool.values.Nodup := by
  rw [h.values_eq]
  exact nodup_eraseDups uses

/-- What is pooled is what has been used. -/
theorem mem_iff (h : Tallies width uses pool) {value : Int} :
    value ∈ pool.values ↔ value ∈ uses := by
  rw [h.values_eq, List.mem_eraseDups]

/-- A use is tallied. -/
theorem intern (h : Tallies width uses pool) (hcell : width.Fits cell) :
    Tallies width (uses ++ [cell]) (pool.intern cell) := by
  refine ⟨?_, fun literal hmem => ?_, fun value hmem => ?_⟩
  · rw [values_intern, h.values_eq, ← foldl_enter_nil, ← foldl_enter_nil, List.foldl_append]
    rfl
  · rw [List.count_append]
    rcases mem_use h.nodup hmem with ⟨hold, hne⟩ | ⟨old, hold, rfl, rfl⟩ | ⟨hnew, rfl⟩
    · rw [h.uses_eq literal hold, List.count_singleton, if_neg (by simpa using Ne.symm hne),
        Nat.add_zero]
    · rw [h.uses_eq old hold, List.count_singleton_self]
    · have hcount : uses.count cell = 0 := List.count_eq_zero.mpr (mt h.mem_iff.mpr hnew)
      rw [hcount, List.count_singleton_self]
  · rcases List.mem_append.mp hmem with hmem | hmem
    · exact h.fits value hmem
    · rwa [List.mem_singleton.mp hmem]

/-- Addresses do not change the tally. -/
theorem place (h : Tallies width uses pool) (base : Int) :
    Tallies width uses (pool.place base) := by
  refine ⟨(values_assign base pool.literals).trans h.values_eq, fun literal hmem => ?_, h.fits⟩
  obtain ⟨old, hold, heq⟩ := exists_of_mem_assign hmem
  rw [heq]
  exact h.uses_eq old hold

end Tallies

end Pool

namespace SymbolTable

variable {width : Width} {table table' bare : SymbolTable} {symbol : Symbol} {name : String}
  {location : Option Location} {base cell : Int} {uses : List Int}

/-! ## Questions

A question may keep values of constants, also if it has no answer.  Nothing else changes. -/

/-- The two states are one table, whose definitions are those of `bare`. -/
def Same (bare table other : SymbolTable) : Prop := table = other ∧ table.unfolded = bare

/-- Names that are looked up agree, if their values do. -/
theorem same_resolveWith {value : String → Option Location → Folding SymbolTable Int}
    (h : Agrees (Same bare) (value name location) (value name location)) :
    Agrees (Same bare) (resolveWith value name location) (resolveWith value name location) := by
  refine .read fun table _ hs => ?_
  obtain ⟨rfl, -⟩ := hs
  cases OrderedMap.get? table.bindings name with
  | some bound => exact .ret bound
  | none => exact h

/-- A symbol is looked up alike, whether its value is stored or folded. -/
theorem same_valueOrFold {fold : Symbol → Folding SymbolTable Int}
    (h : ∀ symbol, bare.find? name = some symbol.unfolded → symbol.kind = .constant →
      Agrees (Same bare) (fold symbol) (fold symbol)) :
    Agrees (Same bare) (valueOrFold fold name location) (valueOrFold fold name location) := by
  -- only the symbol under the name is looked at
  refine .read fun table _ hs => ?_
  obtain ⟨rfl, rfl⟩ := hs
  cases hfind : table.find? name with
  | none => exact .refuse _
  | some symbol =>
      cases hvalue : symbol.value with
      | some value =>
          simp only [hvalue]
          exact .ret value
      | none =>
          simp only [hvalue]
          by_cases hkind : symbol.kind = .constant
          · rw [if_neg (not_not.mpr hkind)]
            exact h symbol (by rw [find?_unfolded, hfind, Option.map_some]) hkind
          · rw [if_pos hkind]
            exact .refuse _

/-- To store the value of a constant makes no difference without the values. -/
theorem same_keep (hnodup : (bare.symbols.map Symbol.name).Nodup)
    (hfind : bare.find? symbol.name = some symbol.unfolded) (hkind : symbol.kind = .constant)
    (value : Int) :
    Agrees (Same bare) (modify (·.setValue symbol.name value))
      (modify (·.setValue symbol.name value)) := by
  rintro table _ ⟨rfl, rfl⟩
  refine ⟨.ok (), _, _, rfl, rfl, rfl, ?_⟩
  rw [find?_unfolded] at hfind
  obtain ⟨found, hfound, hunfolded⟩ := Option.map_eq_some_iff.mp hfind
  refine unfolded_setValue ?_ hfound ?_ value
  · simpa [unfolded, Function.comp_def] using hnodup
  · rw [← hkind, ← Symbol.kind_unfolded, hunfolded, Symbol.kind_unfolded]

/-- To fold a constant makes none, if the names in its definition make none. -/
theorem same_foldConstant (hnodup : (bare.symbols.map Symbol.name).Nodup)
    {value : String → Option Location → Folding SymbolTable Int}
    (hfind : bare.find? symbol.name = some symbol.unfolded) (hkind : symbol.kind = .constant)
    (h : ∀ name location, Agrees (Same bare) (value name location) (value name location)) :
    Agrees (Same bare) (foldConstant value symbol) (foldConstant value symbol) := by
  unfold foldConstant
  cases symbol.definition with
  | none => exact .refuse _
  | some definition =>
      refine .read fun table _ hs => ?_
      obtain ⟨rfl, -⟩ := hs
      refine Agrees.bind (definition.agrees_fold table.arith none fun name _ location =>
        same_resolveWith (h name location)) fun result => ?_
      exact (same_keep hnodup hfind hkind result).bind fun _ => .ret result

/-- Neither does looking a value up in so many rounds. -/
theorem same_valueWithin (hnodup : (bare.symbols.map Symbol.name).Nodup) (rounds : Nat)
    (folding : List String) (name : String) (location : Option Location) :
    Agrees (Same bare) (valueWithin rounds folding name location)
      (valueWithin rounds folding name location) := by
  induction rounds generalizing folding name location with
  | zero => exact same_valueOrFold fun symbol _ _ => .refuse _
  | succ rounds ih =>
      refine same_valueOrFold fun symbol hfind hkind => ?_
      split
      · exact .refuse _
      · have hname : symbol.name = name := by
          rw [← Symbol.name_unfolded]
          exact name_of_find? hfind
        exact same_foldConstant hnodup (hname ▸ hfind) hkind (ih _)

/-- Neither does looking it up at all. -/
theorem same_valueOf (hnodup : (bare.symbols.map Symbol.name).Nodup) (name : String)
    (location : Option Location) :
    Agrees (Same bare) (valueOf name location) (valueOf name location) := by
  refine .read fun table _ hs => ?_
  obtain ⟨rfl, -⟩ := hs
  exact same_valueWithin hnodup _ _ name location

/-- Neither does looking every constant up. -/
theorem same_resolveEach (hnodup : (bare.symbols.map Symbol.name).Nodup) (symbols : List Symbol) :
    Agrees (Same bare) (resolveEach symbols) (resolveEach symbols) := by
  induction symbols with
  | nil => exact .ret ()
  | cons symbol rest ih =>
      rw [resolveEach]
      split
      · exact (same_valueOf hnodup symbol.name symbol.location).bind fun _ => ih
      · exact ih

/-- Neither does any query. -/
theorem same_ask (hnodup : (bare.symbols.map Symbol.name).Nodup) (query : Query) :
    Agrees (Same bare) query.ask query.ask := by
  cases query with
  | valueOf name location =>
      exact (same_valueOf hnodup name location).bind fun value => .ret (some value)
  | resolveAll =>
      refine Agrees.bind (.read fun table _ hs => ?_) fun _ => .ret none
      obtain ⟨rfl, -⟩ := hs
      exact same_resolveEach hnodup table.symbols
  | evaluate e here =>
      refine Agrees.bind (.read fun table _ hs => ?_) fun value => .ret (some value)
      obtain ⟨rfl, -⟩ := hs
      exact e.agrees_fold table.arith here fun name _ location =>
        same_resolveWith (same_valueOf hnodup name location)

/-- A query changes nothing but the values of constants. -/
theorem unfolded_ask (hnodup : (table.symbols.map Symbol.name).Nodup) (query : Query) :
    (query.ask.run table).2.unfolded = table.unfolded := by
  have hnodup' : (table.unfolded.symbols.map Symbol.name).Nodup := by
    simpa [unfolded, Function.comp_def] using hnodup
  obtain ⟨_, last, _, hrun, -, -, hlast⟩ := same_ask hnodup' query table table ⟨rfl, rfl⟩
  rw [hrun]
  exact hlast

/-! ## Tied tables -/

/-- Whether a name starts as those of literals do. -/
def namesLiteral (name : String) : Bool := name.toList.head? == some '='

/-- The name of a literal looks like one. -/
theorem namesLiteral_literalName (value : Int) : namesLiteral (literalName value) = true := by
  rw [namesLiteral, literalName, String.toList_append]
  rfl

/-- The literals of the pool are the symbols of that kind, which have their addresses, and no other
symbol has a name like theirs. -/
structure Tied (table : SymbolTable) : Prop where
  nodup : (table.symbols.map Symbol.name).Nodup
  entered : ∀ literal ∈ table.pool.literals, ∃ symbol, table.find? literal.name = some symbol ∧
    symbol.kind = .literal ∧ symbol.value = literal.address
  pooled : ∀ symbol ∈ table.symbols, symbol.kind = .literal →
    ∃ value ∈ table.pool.values, symbol.name = literalName value
  plain : ∀ symbol ∈ table.symbols, symbol.kind ≠ .literal → namesLiteral symbol.name = false

/-- Settling changes values of symbols only. -/
theorem settle_eq (table : SymbolTable) (literals : List Literal) :
    table.settle literals = { table with symbols := (table.settle literals).symbols } := by
  induction literals generalizing table with
  | nil => rfl
  | cons literal rest ih =>
      rw [settle]
      split
      · cases literal.address with
        | none => exact ih table
        | some address => exact ih (table.setValue literal.name address)
      · rfl

/-- Placing the pool gives addresses to its literals. -/
theorem pool_placePool (table : SymbolTable) (base : Int) :
    (table.placePool base).pool = table.pool.place base := by
  rw [placePool, settle_eq]

/-- A symbol that has no literal is not settled. -/
theorem find?_settle_of_notMem {literals : List Literal} (h : name ∉ literals.map Literal.name) :
    (table.settle literals).find? name = table.find? name := by
  induction literals generalizing table with
  | nil => rfl
  | cons literal rest ih =>
      rw [List.map_cons, List.mem_cons, not_or] at h
      rw [settle]
      split
      · cases literal.address with
        | none => exact ih h.2
        | some address =>
            show ((table.setValue literal.name address).settle rest).find? name = _
            rw [ih h.2, find?_setValue, if_neg h.1]
      · rfl

/-- The symbol of a literal is settled at its address. -/
theorem find?_settle_of_mem {literals : List Literal} {literal : Literal} {address : Int}
    (hwritable : ∀ other ∈ literals, other.isWritable = true)
    (hnodup : (literals.map Literal.name).Nodup) (hmem : literal ∈ literals)
    (haddress : literal.address = some address) (hfind : table.find? literal.name = some symbol) :
    (table.settle literals).find? literal.name = some { symbol with value := some address } := by
  obtain ⟨before, after, rfl⟩ := List.append_of_mem hmem
  -- the literals after this one have other names
  have hafter : literal.name ∉ after.map Literal.name := by
    rw [List.map_append, List.map_cons, List.nodup_append] at hnodup
    exact (List.nodup_cons.mp hnodup.2.1).1
  obtain ⟨hbefore, hrest⟩ := List.forall_mem_append.mp hwritable
  have hliteral := hrest literal List.mem_cons_self
  have hfirst : ∀ other ∈ before ++ [literal], other.isWritable = true :=
    List.forall_mem_append.mpr ⟨hbefore, List.forall_mem_singleton.mpr hliteral⟩
  rw [List.append_cons, settle_append _ hfirst, find?_settle_of_notMem hafter]
  exact find?_settle_concat hbefore hliteral haddress hfind

namespace Tied

theorem empty (arith : Arithmetic) : Tied (SymbolTable.empty arith) :=
  ⟨List.nodup_nil, fun _ h => absurd h List.not_mem_nil, fun _ h => absurd h List.not_mem_nil,
    fun _ h => absurd h List.not_mem_nil⟩

/-- The name of a literal is taken by its own symbol at most. -/
theorem not_taken (h : Tied table) {value cell : Int} {first : Symbol} :
    ¬ table.Taken value cell first := by
  rintro ⟨⟨-, hnew⟩, -, hfind⟩
  have hmem : first ∈ table.symbols := List.mem_of_find?_eq_some hfind
  have hname : first.name = literalName cell := name_of_find? hfind
  by_cases hkind : first.kind = .literal
  · obtain ⟨value, hvalue, hother⟩ := h.pooled first hmem hkind
    obtain rfl := literalName_injective (hname.symm.trans hother)
    exact hnew hvalue
  · have hplain := h.plain first hmem hkind
    rw [hname, namesLiteral_literalName] at hplain
    cases hplain

/-- Values and uses may change, if the symbols of literals have their addresses afterwards. -/
theorem of_valueless (h : Tied table)
    (hsymbols : table'.symbols.map Symbol.valueless = table.symbols.map Symbol.valueless)
    (hvalues : table'.pool.values = table.pool.values)
    (hentered : ∀ literal ∈ table'.pool.literals, ∃ symbol,
      table'.find? literal.name = some symbol ∧ symbol.kind = .literal ∧
        symbol.value = literal.address) : Tied table' := by
  -- names and kinds are all that matters of the other symbols
  have hnames : table'.symbols.map Symbol.name = table.symbols.map Symbol.name := by
    simpa [Function.comp_def] using congrArg (List.map Symbol.name) hsymbols
  have hold : ∀ symbol ∈ table'.symbols,
      ∃ old ∈ table.symbols, old.name = symbol.name ∧ old.kind = symbol.kind := by
    intro symbol hmem
    have hmem' : symbol.valueless ∈ table'.symbols.map Symbol.valueless := List.mem_map_of_mem hmem
    rw [hsymbols] at hmem'
    obtain ⟨old, hold, heq⟩ := List.mem_map.mp hmem'
    exact ⟨old, hold, by rw [← Symbol.name_valueless, heq, Symbol.name_valueless],
      by rw [← Symbol.kind_valueless, heq, Symbol.kind_valueless]⟩
  refine ⟨hnames ▸ h.nodup, hentered, fun symbol hmem hkind => ?_, fun symbol hmem hkind => ?_⟩
  · obtain ⟨old, hmem, hname, holdKind⟩ := hold symbol hmem
    rw [hvalues, ← hname]
    exact h.pooled old hmem (holdKind.trans hkind)
  · obtain ⟨old, hmem, hname, holdKind⟩ := hold symbol hmem
    rw [← hname]
    exact h.plain old hmem (holdKind ▸ hkind)

/-- A definition under an ordinary name keeps a table tied. -/
theorem define (h : Tied table) (hdefine : table.define symbol = .ok table')
    (hkind : symbol.kind ≠ .literal) (hname : namesLiteral symbol.name = false) : Tied table' := by
  obtain ⟨-, htable⟩ := define_eq_ok.mp hdefine
  have hmem : ∀ other ∈ table'.symbols, other ∈ table.symbols ∨ other = symbol := by
    intro other hother
    rw [htable] at hother
    simpa using hother
  have hpool : table'.pool = table.pool := by rw [htable]
  refine ⟨nodup_define hdefine h.nodup, fun literal hliteral => ?_, fun other hother hliteral => ?_,
    fun other hother hother' => ?_⟩
  -- the new symbol does not have the name of a literal
  · rw [find?_define hdefine, if_neg]
    · exact h.entered literal (hpool ▸ hliteral)
    · intro heq
      rw [← heq, Literal.name, namesLiteral_literalName] at hname
      cases hname
  · rw [hpool]
    rcases hmem other hother with hold | rfl
    · exact h.pooled other hold hliteral
    · exact absurd hliteral hkind
  · rcases hmem other hother with hold | rfl
    · exact h.plain other hold hother'
    · exact hname

/-- Questions leave the symbols of literals alone. -/
theorem ask (h : Tied table) (query : Query) : Tied (query.ask.run table).2 := by
  have hunfolded := unfolded_ask h.nodup query
  generalize (query.ask.run table).2 = last at hunfolded
  have hpool : last.pool = table.pool :=
    show last.unfolded.pool = table.unfolded.pool by rw [hunfolded]
  have hvalueless : ∀ table : SymbolTable,
      table.unfolded.symbols.map Symbol.valueless = table.symbols.map Symbol.valueless := by
    intro table
    simp [unfolded, Function.comp_def]
  refine h.of_valueless ?_ (by rw [hpool]) fun literal hliteral => ?_
  · rw [← hvalueless, hunfolded, hvalueless]
  · obtain ⟨symbol, hfind, hkind, hvalue⟩ := h.entered literal (hpool ▸ hliteral)
    have hlast : (last.find? literal.name).map Symbol.unfolded = some symbol.unfolded := by
      rw [← find?_unfolded, hunfolded, find?_unfolded, hfind, Option.map_some]
    obtain ⟨other, hother, heq⟩ := Option.map_eq_some_iff.mp hlast
    have hkind' : other.kind = .literal := by
      rw [← Symbol.kind_unfolded, heq, Symbol.kind_unfolded, hkind]
    -- only a constant could have another value
    have hvalue' := congrArg Symbol.value heq
    rw [Symbol.value_unfolded, Symbol.value_unfolded, hkind, hkind', if_neg (by decide),
      if_neg (by decide)] at hvalue'
    exact ⟨other, hother, hkind', hvalue'.trans hvalue⟩

/-- A use of a value that is in the pool is only counted. -/
theorem count (h : Tied table) (hnodup : table.pool.values.Nodup)
    (hmem : cell ∈ table.pool.values) : Tied { table with pool := table.pool.intern cell } := by
  refine h.of_valueless rfl ?_ fun literal hliteral => ?_
  · rw [Pool.values_intern, Pool.enter, if_pos hmem]
  · rcases Pool.mem_use hnodup hliteral with ⟨hold, -⟩ | ⟨old, hold, -, rfl⟩ | ⟨hnew, -⟩
    · exact h.entered literal hold
    · exact h.entered old hold
    · exact absurd hmem hnew

/-- A value that is new gets a symbol. -/
theorem enter (h : Tied table) (hnew : cell ∉ table.pool.values)
    (hfind : table.find? (literalName cell) = none) :
    Tied { table with
      symbols := table.symbols ++ [⟨literalName cell, .literal, none, none, none⟩]
      pool := table.pool.intern cell } := by
  have hdefine : ({ table with pool := table.pool.intern cell } : SymbolTable).define
      ⟨literalName cell, .literal, none, none, none⟩ = .ok { table with
        symbols := table.symbols ++ [⟨literalName cell, .literal, none, none, none⟩]
        pool := table.pool.intern cell } := define_eq_ok.mpr ⟨hfind, rfl⟩
  have hvalues : (table.pool.intern cell).values = table.pool.values ++ [cell] := by
    rw [Pool.values_intern, Pool.enter, if_neg hnew]
  refine ⟨nodup_define hdefine h.nodup, fun literal hliteral => ?_, fun symbol hmem hkind => ?_,
    fun symbol hmem hkind => ?_⟩
  · rw [find?_define hdefine]
    rw [Pool.intern, Pool.use_of_notMem hnew, List.mem_append, List.mem_singleton] at hliteral
    rcases hliteral with hold | rfl
    · rw [if_neg]
      · exact h.entered literal hold
      · -- its name is defined, and that of the new literal is not
        intro heq
        obtain ⟨symbol, hsymbol, -⟩ := h.entered literal hold
        rw [heq, hfind] at hsymbol
        cases hsymbol
    · exact ⟨_, if_pos rfl, rfl, rfl⟩
  · rw [hvalues]
    rcases List.mem_append.mp hmem with hmem | hmem
    · obtain ⟨value, hvalue, hname⟩ := h.pooled symbol hmem hkind
      exact ⟨value, List.mem_append_left _ hvalue, hname⟩
    · rw [List.mem_singleton.mp hmem]
      exact ⟨cell, by simp, rfl⟩
  · rcases List.mem_append.mp hmem with hmem | hmem
    · exact h.plain symbol hmem hkind
    · rw [List.mem_singleton.mp hmem] at hkind
      exact absurd rfl hkind

/-- Placing the pool keeps it tied, if all literals can be named. -/
theorem place (h : Tied table) (hnodup : table.pool.values.Nodup)
    (hwritable : ∀ literal ∈ table.pool.literals, literal.isWritable = true) (base : Int) :
    Tied (table.placePool base) := by
  have hpool := pool_placePool table base
  have hplaced : ∀ literal ∈ (table.pool.place base).literals, literal.isWritable = true := by
    intro literal hliteral
    obtain ⟨old, hold, heq⟩ := Pool.exists_of_mem_assign hliteral
    rw [heq]
    exact hwritable old hold
  have hnames : ((table.pool.place base).literals.map Literal.name).Nodup := by
    have hvalues : (table.pool.place base).literals.map Literal.name =
        table.pool.values.map literalName := by
      rw [Pool.values, ← Pool.values_assign base, List.map_map]
      rfl
    rw [hvalues]
    exact hnodup.map literalName_injective
  refine h.of_valueless (valueless_settle _ _) ?_ fun literal hliteral => ?_
  · rw [hpool]
    exact Pool.values_assign base table.pool.literals
  · -- a placed literal has the symbol that it had before, now with its address
    rw [hpool] at hliteral
    obtain ⟨old, hold, heq⟩ := Pool.exists_of_mem_assign hliteral
    obtain ⟨address, haddress⟩ :=
      Option.isSome_iff_exists.mp (Pool.isSome_address_of_assign hliteral)
    obtain ⟨symbol, hfind, hkind, -⟩ := h.entered old hold
    have hname : old.name = literal.name := by rw [heq]; rfl
    rw [hname] at hfind
    exact ⟨_, find?_settle_of_mem hplaced hnames hliteral haddress hfind, hkind, haddress.symm⟩

end Tied

/-! ## Requests -/

namespace Request

/-- The requests that leave the names of literals to the table. -/
def isOrdinary : Request → Bool
  | enter symbol => symbol.kind != .literal && !namesLiteral symbol.name
  | define definition => !namesLiteral definition.toSymbol.name
  | mention .. | bind .. | checkMentions | ask _ | intern _ | place _ => true

/-- The cell of the literal that a request has used, if it was served. -/
def used? (width : Width) : Request × Except Fault Reply → Option Int
  | (intern value, .ok _) => some (width.wrap value)
  | _ => none

/-- What holds before a request for a change, and after the change, holds after the request. -/
theorem after_update {P : SymbolTable → Prop} {request : Request}
    {change : SymbolTable → Except Fault SymbolTable}
    (hserve : request.serve = do Folding.update change; pure .done) (hbefore : P table)
    (hchange : ∀ table', change table = .ok table' → P table') : P (request.after table) := by
  rw [after]
  rcases run_serve_update hserve table with ⟨_, -, hrun⟩ | ⟨table', hok, hrun⟩
  · rwa [hrun]
  · rw [hrun]
    exact hchange table' hok

end Request

/-- The pool is in step with the symbols and with what has been used, and what a cell holds can be
written. -/
structure InStep (width : Width) (uses : List Int) (table : SymbolTable) : Prop where
  bits_le : width.bits ≤ Digits.bitLimit
  width_eq : table.arith.width = width
  tied : Tied table
  tallies : Pool.Tallies width uses table.pool

namespace InStep

theorem empty {arith : Arithmetic} (hbits : arith.width.bits ≤ Digits.bitLimit) :
    InStep arith.width [] (SymbolTable.empty arith) :=
  ⟨hbits, rfl, .empty arith, .empty arith.width⟩

theorem isWritable (h : InStep width uses table) :
    ∀ literal ∈ table.pool.literals, literal.isWritable = true := by
  intro literal hliteral
  have hmem : literal.value ∈ table.pool.values := List.mem_map_of_mem hliteral
  exact (h.tallies.fits _ (h.tallies.mem_iff.mp hmem)).isWritable h.bits_le

/-- Mentions and bindings do not matter. -/
theorem of_eq (h : InStep width uses table) (harith : table'.arith = table.arith)
    (hsymbols : table'.symbols = table.symbols) (hpool : table'.pool = table.pool) :
    InStep width uses table' := by
  obtain ⟨arith, symbols, mentioned, bindings, pool⟩ := table'
  -- the statements are about these three fields alone
  obtain rfl : arith = table.arith := harith
  obtain rfl : symbols = table.symbols := hsymbols
  obtain rfl : pool = table.pool := hpool
  exact ⟨h.bits_le, h.width_eq, ⟨h.tied.nodup, h.tied.entered, h.tied.pooled, h.tied.plain⟩,
    h.tallies⟩

/-- A definition under an ordinary name keeps the pool in step. -/
theorem define (h : InStep width uses table) (hdefine : table.define symbol = .ok table')
    (hkind : symbol.kind ≠ .literal) (hname : namesLiteral symbol.name = false) :
    InStep width uses table' := by
  have htied := h.tied.define hdefine hkind hname
  obtain ⟨-, rfl⟩ := define_eq_ok.mp hdefine
  exact ⟨h.bits_le, h.width_eq, htied, h.tallies⟩

/-- So does a query. -/
theorem ask (h : InStep width uses table) (query : Query) :
    InStep width uses (query.ask.run table).2 := by
  have hunfolded := unfolded_ask h.tied.nodup query
  refine ⟨h.bits_le, ?_, h.tied.ask query, ?_⟩
  · show (query.ask.run table).2.unfolded.arith.width = width
    rw [hunfolded]
    exact h.width_eq
  · show Pool.Tallies width uses (query.ask.run table).2.unfolded.pool
    rw [hunfolded]
    exact h.tallies

/-- So does placing the pool. -/
theorem place (h : InStep width uses table) (base : Int) :
    InStep width uses (table.placePool base) := by
  refine ⟨h.bits_le, ?_, h.tied.place h.tallies.nodup h.isWritable base, ?_⟩
  · rw [placePool, settle_eq]
    exact h.width_eq
  · rw [pool_placePool]
    exact h.tallies.place base

/-- A literal is served and counted, or it does not fit into a cell and nothing happens. -/
theorem intern (h : InStep width uses table) (value : Int) :
    InStep width
      (uses ++ (Request.used? width
        (.intern value, (Request.intern value).result table)).toList)
      ((Request.intern value).after table) := by
  have htallies : ∀ cell, table.arith.toCell value none = .ok cell →
      Pool.Tallies width (uses ++ [width.wrap value]) (table.pool.intern cell) := by
    intro cell hcell
    rw [Arithmetic.eq_wrap_of_toCell hcell, h.width_eq]
    exact h.tallies.intern (width.fits_wrap value)
  rw [Request.result, Request.after]
  rcases Request.intern_cases value table with ⟨fault, hrun⟩ | ⟨cell, _, hcell, hmem, hrun⟩ |
    ⟨cell, _, hnew, hfind, hrun⟩ | ⟨cell, first, htaken⟩ | ⟨cell, hunnamed⟩
  · rw [hrun]
    exact (List.append_nil uses).symm ▸ h
  · rw [hrun]
    exact ⟨h.bits_le, h.width_eq, h.tied.count h.tallies.nodup hmem, htallies cell hcell⟩
  · rw [hrun]
    exact ⟨h.bits_le, h.width_eq, h.tied.enter hnew.notMem hfind, htallies cell hnew.toCell_eq⟩
  · exact absurd htaken h.tied.not_taken
  · -- what fits into a cell can be written
    have hfits : width.Fits cell := h.width_eq ▸ Arithmetic.fits_of_toCell hunnamed.toCell_eq
    have hunwritable := hunnamed.unwritable
    rw [hfits.isWritable h.bits_le] at hunwritable
    cases hunwritable

/-- Every request keeps the pool in step. -/
theorem after (h : InStep width uses table) {request : Request}
    (hordinary : request.isOrdinary = true) :
    InStep width (uses ++ (Request.used? width (request, request.result table)).toList)
      (request.after table) := by
  have hunused : ∀ {table'}, InStep width uses table' →
      InStep width (uses ++ (none : Option Int).toList) table' := by
    intro table' h'
    rwa [Option.toList_none, List.append_nil]
  -- the invariant is kept by each of the requests; only an intern uses a cell
  cases request with
  | enter symbol =>
      rw [Request.isOrdinary, Bool.and_eq_true, bne_iff_ne, Bool.not_eq_true'] at hordinary
      exact hunused (Request.after_update rfl h fun table' hdefine =>
        h.define hdefine hordinary.1 hordinary.2)
  | define definition =>
      rw [Request.isOrdinary, Bool.not_eq_true'] at hordinary
      refine hunused (Request.after_update rfl h fun table' hdefine => ?_)
      rw [definition.enter_eq_define] at hdefine
      exact h.define hdefine definition.kind_toSymbol hordinary
  | mention name location =>
      refine hunused ?_
      show InStep width uses (table.mention name location)
      rw [mention]
      split
      · exact h
      · exact h.of_eq rfl rfl rfl
  | bind name value =>
      refine hunused (Request.after_update rfl h fun table' hbind => ?_)
      obtain ⟨bindings, -, heq⟩ := bind_eq_ok.mp hbind
      obtain rfl := Except.ok.inj heq
      exact h.of_eq rfl rfl rfl
  | checkMentions =>
      refine hunused ?_
      rw [Request.after, Request.serve, run_read, run_bind]
      cases table.checkMentions with
      | error fault => exact h
      | ok u => exact h
  | ask query =>
      have hlast := h.ask query
      refine hunused ?_
      rw [Request.after, Request.serve, run_bind]
      rcases hrun : query.ask.run table with ⟨fault | value, last⟩
      · rwa [hrun] at hlast
      · rwa [hrun] at hlast
  | intern value => exact h.intern value
  | place base =>
      refine hunused ?_
      rw [Request.after, Request.run_serve_place]
      exact h.place base

end InStep

/-! ## Sequences of requests -/

theorem served_concat (table : SymbolTable) (requests : List Request) (request : Request) :
    table.served (requests ++ [request]) = request.after (table.served requests) := by
  rw [served, List.foldl_append]
  rfl

theorem length_results (table : SymbolTable) (requests : List Request) :
    (table.results requests).length = requests.length := by
  induction requests generalizing table with
  | nil => rfl
  | cons request rest ih => rw [results, List.length_cons, List.length_cons, ih]

/-- The last result is that of the last request. -/
theorem results_concat (table : SymbolTable) (requests : List Request) (request : Request) :
    table.results (requests ++ [request]) =
      table.results requests ++ [request.result (table.served requests)] := by
  induction requests generalizing table with
  | nil => rfl
  | cons first rest ih =>
      rw [List.cons_append, results, results, ih]
      rfl

/-- The table that requests lead to. -/
def reached (arith : Arithmetic) (requests : List Request) : SymbolTable :=
  (empty arith).served requests

/-- The cells of the literals that were used, in order. -/
def usedCells (arith : Arithmetic) (requests : List Request) : List Int :=
  (requests.zip ((empty arith).results requests)).filterMap (Request.used? arith.width)

/-- A table is reached request by request. -/
theorem reached_concat (arith : Arithmetic) (requests : List Request) (request : Request) :
    reached arith (requests ++ [request]) = request.after (reached arith requests) :=
  served_concat (empty arith) requests request

/-- A request adds what it uses. -/
theorem usedCells_concat (arith : Arithmetic) (requests : List Request) (request : Request) :
    usedCells arith (requests ++ [request]) =
      usedCells arith requests ++
        (Request.used? arith.width (request, request.result (reached arith requests))).toList := by
  rw [usedCells, results_concat, List.zip_append (length_results _ _).symm, List.filterMap_append]
  congr 1

/-- Every table that ordinary requests lead to is in step. -/
theorem inStep_reached {arith : Arithmetic} (hbits : arith.width.bits ≤ Digits.bitLimit)
    {requests : List Request}
    (hordinary : ∀ request ∈ requests, request.isOrdinary = true) :
    InStep arith.width (usedCells arith requests) (reached arith requests) := by
  induction requests using List.reverseRecOn with
  | nil => exact .empty hbits
  | append_singleton requests request ih =>
      rw [usedCells_concat, reached_concat]
      exact (ih fun other hmem => hordinary other (List.mem_append_left _ hmem)).after
        (hordinary request (by simp))

/-- The pool and its symbols agree after any ordinary requests, whether they were served or refused.
The values are different ones that fit into a cell, and stand in the order of their first uses;
every use that was served is counted; the symbols that are literals are those of the pool; each has
the address of its literal, once there is one; and placing the pool gives consecutive addresses.  The
cells may be as wide as all that they hold can be written. -/
theorem reached_in_step {arith : Arithmetic} (hbits : arith.width.bits ≤ Digits.bitLimit)
    {requests : List Request}
    (hordinary : ∀ request ∈ requests, request.isOrdinary = true) :
    (reached arith requests).pool.values.Nodup ∧
    (∀ value ∈ (reached arith requests).pool.values, arith.width.Fits value) ∧
    (reached arith requests).pool.values = (usedCells arith requests).eraseDups ∧
    (∀ literal ∈ (reached arith requests).pool.literals,
      literal.uses = (usedCells arith requests).count literal.value) ∧
    (∀ name, (∃ symbol ∈ (reached arith requests).symbols,
        symbol.name = name ∧ symbol.kind = .literal) ↔
      ∃ value ∈ (reached arith requests).pool.values, name = literalName value) ∧
    (∀ literal ∈ (reached arith requests).pool.literals, ∃ symbol,
      (reached arith requests).find? literal.name = some symbol ∧ symbol.kind = .literal ∧
        symbol.value = literal.address) ∧
    ∀ base, (Request.place base).result (reached arith requests) =
        .ok (.address (base + (reached arith requests).pool.values.length)) ∧
      ((Request.place base).after (reached arith requests)).pool.values =
        (reached arith requests).pool.values ∧
      ∀ (index : Nat) literal,
        ((Request.place base).after (reached arith requests)).pool.literals[index]? = some literal →
          literal.address = some (base + index) := by
  -- everything is a part of the invariant that the requests keep
  have h := inStep_reached hbits hordinary
  generalize reached arith requests = table at h
  generalize usedCells arith requests = uses at h
  refine ⟨h.tallies.nodup, fun value hvalue => h.tallies.fits value (h.tallies.mem_iff.mp hvalue),
    h.tallies.values_eq, h.tallies.uses_eq, fun name => ⟨?_, ?_⟩, h.tied.entered, fun base => ?_⟩
  · rintro ⟨symbol, hmem, rfl, hkind⟩
    exact h.tied.pooled symbol hmem hkind
  · rintro ⟨value, hvalue, rfl⟩
    obtain ⟨literal, hliteral, rfl⟩ := List.mem_map.mp hvalue
    obtain ⟨symbol, hfind, hkind, -⟩ := h.tied.entered literal hliteral
    exact ⟨symbol, List.mem_of_find?_eq_some hfind, name_of_find? hfind, hkind⟩
  · have hpool : ((Request.place base).after table).pool = table.pool.place base := by
      rw [Request.after, Request.run_serve_place]
      exact pool_placePool table base
    refine ⟨?_, ?_, fun index literal hliteral => ?_⟩
    -- all literals have names, so the pool has an end
    · have hend : table.poolEnd base = .ok (base + table.pool.values.length) := by
        refine poolEnd_eq_ok.mpr ⟨h.isWritable, ?_⟩
        rw [Pool.endAddress, Pool.values, List.length_map]
      rw [Request.result, Request.run_serve_place, hend]
      rfl
    · rw [hpool]
      exact Pool.values_assign base table.pool.literals
    · rw [hpool, Pool.place, Pool.getElem?_assign] at hliteral
      obtain ⟨old, -, rfl⟩ := Option.map_eq_some_iff.mp hliteral
      rfl

/-- Requests of all sorts, two of which are refused: values that share a cell once they are wrapped,
and a pool that is placed again after it has grown. -/
def mixedRequests : List Request :=
  [.define (.label "x" 3 none), .intern 5, .define (.constant "c" (.sym "x" none) none),
    .intern 18446744073709551621, .intern (-1), .ask (.valueOf "c" none),
    .define (.label "x" 4 none), .ask (.valueOf "nowhere" none), .place 40, .intern 7, .place 50]

theorem reached_in_step_mixed :
    Width.default.bits ≤ Digits.bitLimit ∧
    (∀ request ∈ mixedRequests, request.isOrdinary = true) ∧
    (reached ⟨.default, false⟩ mixedRequests).pool.literals =
      [⟨5, some 50, 2⟩, ⟨-1, some 51, 1⟩, ⟨7, some 52, 1⟩] ∧
    usedCells ⟨.default, false⟩ mixedRequests = [5, 5, -1, 7] ∧
    (reached ⟨.default, false⟩ mixedRequests).pool.values =
      (usedCells ⟨.default, false⟩ mixedRequests).eraseDups ∧
    (∀ literal ∈ (reached ⟨.default, false⟩ mixedRequests).pool.literals,
      literal.uses = (usedCells ⟨.default, false⟩ mixedRequests).count literal.value) ∧
    ∀ literal ∈ (reached ⟨.default, false⟩ mixedRequests).pool.literals, ∃ symbol,
      (reached ⟨.default, false⟩ mixedRequests).find? literal.name = some symbol ∧
        symbol.kind = .literal ∧ symbol.value = literal.address := by
  have hordinary : ∀ request ∈ mixedRequests, request.isOrdinary = true := by decide +kernel
  have hbits : (⟨.default, false⟩ : Arithmetic).width.bits ≤ Digits.bitLimit := by decide
  obtain ⟨-, -, hvalues, huses, -, hentered, -⟩ := reached_in_step hbits hordinary
  exact ⟨hbits, hordinary, by decide +kernel, by decide +kernel, hvalues, huses, hentered⟩

/-- Cells that are wider than the limit. -/
def unnamedWidth : Width := ⟨20000, by decide⟩

/-- A value that has too many digits for a name is refused in such cells, but then the pool has it,
with a use that was not served and without a symbol. -/
theorem unnamed_counted :
    (Request.intern (2 ^ 15000)).isOrdinary = true ∧
    (Request.intern (2 ^ 15000)).result (empty ⟨unnamedWidth, false⟩) =
      .error (.excess .unwritten) ∧
    (reached ⟨unnamedWidth, false⟩ [.intern (2 ^ 15000)]).pool.literals =
      [⟨2 ^ 15000, none, 1⟩] ∧
    (reached ⟨unnamedWidth, false⟩ [.intern (2 ^ 15000)]).symbols = [] ∧
    usedCells ⟨unnamedWidth, false⟩ [.intern (2 ^ 15000)] = [] := by
  have hfits : unnamedWidth.Fits (2 ^ 15000) := Width.fits_two_pow (by decide)
  -- the cell has more digits than a name may have
  have hunnamed : (empty ⟨unnamedWidth, false⟩).Unnamed (2 ^ 15000) (2 ^ 15000) :=
    ⟨⟨Arithmetic.toCell_of_fits hfits, List.not_mem_nil⟩,
      Digits.not_isWritable_two_pow (by decide)⟩
  have hresult : (Request.intern (2 ^ 15000)).result (empty ⟨unnamedWidth, false⟩) =
      .error (.excess .unwritten) := by
    rw [Request.result, hunnamed.run_intern]
  -- the use is counted before the name is found to be too long
  have hafter : reached ⟨unnamedWidth, false⟩ [.intern (2 ^ 15000)] =
      (empty ⟨unnamedWidth, false⟩).pooling ⟨2 ^ 15000, none, 1⟩ := by
    show (Request.intern (2 ^ 15000)).after (empty ⟨unnamedWidth, false⟩) = _
    rw [Request.after, hunnamed.run_intern]
  refine ⟨rfl, hresult, ?_, ?_, ?_⟩
  · rw [hafter]
    rfl
  · rw [hafter]
    rfl
  · rw [usedCells, results, hresult]
    rfl

end SymbolTable

end Subleq
