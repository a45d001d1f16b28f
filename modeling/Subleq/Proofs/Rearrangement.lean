import Subleq.Proofs.QueryOrder
import Subleq.Proofs.Simulation

/-!
# The position of constants

Constants are entered before anything else is placed, and a constant is folded when it is asked for.
So it should not matter where in a program the constants stand, nor in what order: two programs that
differ in nothing else (`Rearranged`) are assembled into images that differ only in the order of their
symbols (`Assembly.ofStatements_rearranged`).

The tables of two such assemblies have the same symbols in another order
(`SymbolTable.Shuffled`), and all stages but one treat them alike.  The exception is the stage that
folds all constants, in the order in which they were entered.  What it comes to does not depend on
that order because a table that has folded some constants still answers as if it had folded none
(`SymbolTable.Backed`), so the tables are also known to be of that kind until then
(`SymbolTable.Aligned`).
-/

namespace Subleq

open Folding

/-! ## Programs without their constants -/

def Statement.isConstant : Statement → Bool
  | .constant _ _ _ _ => true
  | _ => false

/-- The symbol that a statement enters if it defines a constant. -/
def Statement.entry? : Statement → Option Symbol
  | .constant _ name value location => some ⟨name, .constant, none, some value, some location⟩
  | _ => none

/-- The same labels and items in the same order, and the same constants in any order and place. -/
structure Rearranged (statements statements' : List Statement) : Prop where
  others : statements'.filter (!·.isConstant) = statements.filter (!·.isConstant)
  constants : (statements'.filter (·.isConstant)).Perm (statements.filter (·.isConstant))

namespace Layout

/-- Constants take up no cells. -/
theorem placeItems_filter (limit : Int) (address : Nat) (pending : List (String × Location))
    (statements : List Statement) :
    placeItems limit address pending (statements.filter (!·.isConstant)) =
      placeItems limit address pending statements := by
  induction statements generalizing address pending with
  | nil => rfl
  | cons statement rest ih =>
      cases statement with
      | label name location => exact ih address _
      | constant keyword name value location => exact ih address _
      | item body location =>
          rw [List.filter_cons_of_pos rfl, placeItems, placeItems]
          simp only [ih]

/-- Constants take no cells. -/
theorem bodies_filter (statements : List Statement) :
    bodies (statements.filter (!·.isConstant)) = bodies statements := by
  induction statements with
  | nil => rfl
  | cons statement rest ih =>
      cases statement with
      | label _ _ => exact ih
      | constant _ _ _ _ => exact ih
      | item body location => exact congrArg (body :: ·) ih

end Layout

/-- What is mentioned in constants is found by other means. -/
theorem Assembly.mentions_filter (statements : List Statement) :
    mentions (statements.filter (!·.isConstant)) = mentions statements := by
  induction statements with
  | nil => rfl
  | cons statement rest ih =>
      cases statement with
      | label _ _ => exact ih
      | constant _ _ _ _ => exact ih
      | item body location => exact congrArg (_ ++ ·) ih

/-- Only constants enter symbols in the first walk. -/
theorem Statement.filterMap_entry?_filter (statements : List Statement) :
    (statements.filter (·.isConstant)).filterMap entry? = statements.filterMap entry? := by
  induction statements with
  | nil => rfl
  | cons statement rest ih =>
      cases statement with
      | label _ _ => exact ih
      | constant _ _ _ _ => exact congrArg (_ :: ·) ih
      | item _ _ => exact ih

namespace Rearranged

variable {statements statements' : List Statement} (h : Rearranged statements statements')

include h

theorem placeItems_eq (limit : Int) (address : Nat) (pending : List (String × Location)) :
    Layout.placeItems limit address pending statements' =
      Layout.placeItems limit address pending statements := by
  rw [← Layout.placeItems_filter, h.others, Layout.placeItems_filter]

/-- The program starts with data or not, alike. -/
theorem startsWithData_eq : Layout.startsWithData statements' = Layout.startsWithData statements := by
  unfold Layout.startsWithData
  rw [← Layout.bodies_filter, h.others, Layout.bodies_filter]

theorem mentions_eq : Assembly.mentions statements' = Assembly.mentions statements := by
  rw [← Assembly.mentions_filter, h.others, Assembly.mentions_filter]

/-- The same symbols are entered, in another order. -/
theorem entries_perm :
    (statements'.filterMap Statement.entry?).Perm (statements.filterMap Statement.entry?) := by
  rw [← Statement.filterMap_entry?_filter, ← Statement.filterMap_entry?_filter statements]
  exact h.constants.filterMap Statement.entry?

end Rearranged

/-! ## Tables in another order -/

namespace SymbolTable

variable {table table' table'' bare : SymbolTable} {name : String} {symbol : Symbol}

/-- The same table, with its symbols in another order. -/
structure Shuffled (table table' : SymbolTable) : Prop where
  perm : table'.symbols.Perm table.symbols
  nodup : (table.symbols.map Symbol.name).Nodup
  rest_eq : table' = { table with symbols := table'.symbols }

/-- A symbol is in a table exactly if it is found under its name. -/
theorem mem_symbols_iff (hnodup : (table.symbols.map Symbol.name).Nodup) :
    symbol ∈ table.symbols ↔ table.find? symbol.name = some symbol :=
  ⟨find?_of_mem hnodup, List.mem_of_find?_eq_some⟩

namespace Shuffled

theorem refl (hnodup : (table.symbols.map Symbol.name).Nodup) : Shuffled table table :=
  ⟨.refl _, hnodup, rfl⟩

/-- Tables with the same entries under all names have the same symbols. -/
theorem of_find? (hnodup : (table.symbols.map Symbol.name).Nodup)
    (hnodup' : (table'.symbols.map Symbol.name).Nodup)
    (hfind : ∀ name, table'.find? name = table.find? name)
    (hrest : table' = { table with symbols := table'.symbols }) : Shuffled table table' := by
  refine ⟨?_, hnodup, hrest⟩
  rw [List.perm_ext_iff_of_nodup (.of_map _ hnodup') (.of_map _ hnodup)]
  intro symbol
  rw [mem_symbols_iff hnodup', mem_symbols_iff hnodup, hfind]

variable (h : Shuffled table table')

include h

/-- No name comes twice in the other order either. -/
theorem nodup' : (table'.symbols.map Symbol.name).Nodup :=
  (h.perm.map Symbol.name).nodup_iff.mpr h.nodup

theorem arith_eq : table'.arith = table.arith := by rw [h.rest_eq]

theorem pool_eq : table'.pool = table.pool := by rw [h.rest_eq]

theorem mentioned_eq : table'.mentioned = table.mentioned := by rw [h.rest_eq]

/-- Every name finds the same symbol. -/
theorem find?_eq (name : String) : table'.find? name = table.find? name := by
  cases hfind : table.find? name with
  | none =>
      rw [find?_eq_none] at hfind ⊢
      exact fun symbol hmem => hfind symbol (h.perm.mem_iff.mp hmem)
  | some symbol =>
      obtain rfl := name_of_find? hfind
      exact find?_of_mem h.nodup' (h.perm.mem_iff.mpr (List.mem_of_find?_eq_some hfind))

theorem toExtends : Extends table table' :=
  ⟨h.arith_eq, fun {name symbol} hfind =>
    ⟨symbol, (h.find?_eq name).trans hfind, rfl, rfl, fun _ hvalue => hvalue⟩⟩

/-- The order of the symbols stays as it is whatever is done to each of them. -/
theorem map {f : Symbol → Symbol} (hf : ∀ symbol, (f symbol).name = symbol.name) :
    Shuffled { table with symbols := table.symbols.map f }
      { table' with symbols := table'.symbols.map f } := by
  refine ⟨h.perm.map f, ?_, ?_⟩
  · show ((table.symbols.map f).map Symbol.name).Nodup
    rw [List.map_map, show Symbol.name ∘ f = Symbol.name from funext hf]
    exact h.nodup
  · rw [h.rest_eq]

theorem setValue (name : String) (value : Int) :
    Shuffled (table.setValue name value) (table'.setValue name value) := by
  refine h.map fun symbol => ?_
  split <;> rfl

/-- Values are forgotten alike. -/
theorem unfolded : Shuffled table.unfolded table'.unfolded := h.map Symbol.name_unfolded

theorem withPool (pool : Pool) : Shuffled { table with pool } { table' with pool } :=
  ⟨h.perm, h.nodup, by rw [h.rest_eq]⟩

/-- Symbols may be added in different orders. -/
theorem append {symbols symbols' : List Symbol} (hperm : symbols'.Perm symbols)
    (hnodup : ((table.symbols ++ symbols).map Symbol.name).Nodup) :
    Shuffled { table with symbols := table.symbols ++ symbols }
      { table' with symbols := table'.symbols ++ symbols' } :=
  ⟨h.perm.append hperm, hnodup, by rw [h.rest_eq]⟩

/-- A definition is accepted alike. -/
theorem define {defined : SymbolTable} (hdefine : table.define symbol = .ok defined) :
    ∃ defined', table'.define symbol = .ok defined' ∧ Shuffled defined defined' := by
  have hnodup := nodup_define hdefine h.nodup
  obtain ⟨hnew, rfl⟩ := define_eq_ok.mp hdefine
  refine ⟨_, define_eq_ok.mpr ⟨(h.find?_eq _).trans hnew, rfl⟩, ?_⟩
  exact h.append (.refl _) hnodup

end Shuffled

/-- Shuffled tables answer alike. -/
theorem lookup_shuffled : Lookup Shuffled where
  accepts h := h.arith_eq ▸ .refl _
  bindings_eq h := by rw [h.rest_eq]
  length_eq h := h.perm.length_eq
  find?_eq := Shuffled.find?_eq
  setValue := Shuffled.setValue

/-- Everything the table is used for leads from shuffled tables to shuffled tables. -/
theorem simulation_shuffled : Simulation Shuffled where
  accepts := lookup_shuffled.accepts
  pool_eq := Shuffled.pool_eq
  withPool := Shuffled.withPool
  define _ := fun h hdefine => h.define hdefine
  valueOf := lookup_shuffled.follows_valueOf
  evaluate := lookup_shuffled.follows_evaluate

/-- Mentions are checked alike. -/
theorem checkMentions_of_shuffled (h : Shuffled table table') {u : Unit}
    (hok : table.checkMentions = .ok u) : table'.checkMentions = .ok u := by
  have hcontains : table'.contains = table.contains := by
    funext name
    rw [contains, contains, h.find?_eq]
  unfold checkMentions at hok ⊢
  rw [h.mentioned_eq, hcontains]
  split at hok
  · cases hok
  · exact hok

/-! ## Tables that keep nothing but answers -/

/-- The constants that a table has folded have the values that are the answers for them. -/
def Kept (table : SymbolTable) : Prop := Backed table.unfolded table

/-- A backed table has no value that it could not fold again. -/
theorem Backed.kept (h : Backed bare table) : Kept table := by
  rw [Kept, h.unfolded_eq]
  exact h

namespace Kept

/-- Only the symbols, the bindings and the arithmetic of a table matter. -/
theorem of_symbols (h : Kept table) (harith : table'.arith = table.arith)
    (hbindings : table'.bindings = table.bindings) (hsymbols : table'.symbols = table.symbols) :
    Kept table' := by
  have hextends : Extends table.unfolded table'.unfolded :=
    .of_symbols harith (congrArg (List.map Symbol.unfolded) hsymbols)
  refine ⟨rfl, hbindings.trans h.bindings_eq, hsymbols ▸ h.nodup, ?_⟩
  intro name symbol value hfind hkind hvalue
  rw [find?, hsymbols] at hfind
  obtain ⟨rounds, folding, location, hanswer⟩ := h.answered hfind hkind hvalue
  exact ⟨rounds, folding, location, answer_mono (unfolded_unfolded table') hextends hanswer⟩

/-- Neither has one with a definition more. -/
theorem define (h : Kept table) (hsymbol : symbol.kind = .constant → symbol.value = none)
    (hdefine : table.define symbol = .ok table') : Kept table' := by
  refine Backed.define h hdefine ?_
  rw [Symbol.unfolded]
  split
  · next hkind => rw [← hsymbol hkind]
  · rfl

/-- Neither has one after a look-up. -/
theorem valueOf {location : Option Location} {value : Int} (h : Kept table)
    (hyields : Yields (valueOf name location) table value table') : Kept table' := by
  obtain ⟨last, hrun, hlast⟩ := run_valueOf name location table h
  obtain rfl : last = table' := congrArg Prod.snd (hrun.symm.trans hyields)
  exact hlast.kept

/-- An evaluation only folds constants. -/
theorem backed_evaluate {e : Expr} {here : Option Int} {value : Int} (h : Kept table)
    (hyields : Yields (evaluate e here) table value table') : Backed table.unfolded table' := by
  obtain ⟨last, hrun, hlast⟩ := run_fold e here (fun name _ => run_valueOf name) h
  obtain rfl : last = table' := congrArg Prod.snd (hrun.symm.trans hyields)
  exact hlast

theorem evaluate {e : Expr} {here : Option Int} {value : Int} (h : Kept table)
    (hyields : Yields (evaluate e here) table value table') : Kept table' :=
  (h.backed_evaluate hyields).kept

end Kept

/-- The same symbols in another order, in tables that keep nothing but answers. -/
structure Aligned (table table' : SymbolTable) : Prop extends Shuffled table table' where
  kept : Kept table
  kept' : Kept table'

theorem Kept.aligned (h : Kept table) : Aligned table table := ⟨.refl h.nodup, h, h⟩

/-- Everything the table is used for leads from aligned tables to aligned tables. -/
theorem simulation_aligned : Simulation Aligned where
  accepts h := lookup_shuffled.accepts h.toShuffled
  pool_eq h := h.pool_eq
  withPool h pool :=
    ⟨h.toShuffled.withPool pool, h.kept.of_symbols rfl rfl rfl, h.kept'.of_symbols rfl rfl rfl⟩
  -- both tables keep what they have, so they stay aligned when symbols are added
  define hsymbol _ _ _ h hdefine := by
    obtain ⟨defined', hdefine', hshuffled⟩ := h.toShuffled.define hdefine
    exact ⟨defined', hdefine', hshuffled, h.kept.define hsymbol hdefine,
      h.kept'.define hsymbol hdefine'⟩
  valueOf name location table table' value last h hyields := by
    obtain ⟨last', hyields', hshuffled⟩ :=
      lookup_shuffled.follows_valueOf name location _ _ _ _ h.toShuffled hyields
    exact ⟨last', hyields', hshuffled, h.kept.valueOf hyields, h.kept'.valueOf hyields'⟩
  evaluate e here table table' value last h hyields := by
    obtain ⟨last', hyields', hshuffled⟩ :=
      lookup_shuffled.follows_evaluate e here _ _ _ _ h.toShuffled hyields
    exact ⟨last', hyields', hshuffled, h.kept.evaluate hyields, h.kept'.evaluate hyields'⟩

/-- What tables that are aligned do alike keeps the answers of a table. -/
theorem Kept.of_follows {α : Type} {m : Folding SymbolTable α} {a : α} (h : Kept table)
    (hm : Follows Aligned m m) (hyields : Yields m table a table') : Kept table' := by
  obtain ⟨_, -, haligned⟩ := hm _ _ _ _ h.aligned hyields
  exact haligned.kept

/-! ## Folding all constants -/

/-- A value may be replaced by another one, but a name that has a value always has one. -/
theorem lookup_valued (name : String) :
    Lookup fun table table' => table = table' ∧ (table.value? name).isSome := by
  refine lookup_of_invariant fun {table} hvalue target value => ?_
  obtain ⟨known, hknown⟩ := Option.isSome_iff_exists.mp hvalue
  obtain ⟨symbol, hfind, hsymbol⟩ := value?_eq_some.mp hknown
  rw [value?, find?_setValue, hfind]
  split
  · rfl
  · rw [Option.bind_some, hsymbol]
    rfl

/-- A name has a value after it has been asked for. -/
theorem isSome_value?_of_valueOf {location : Option Location} {value : Int}
    (hbacked : Backed bare table) (h : Yields (valueOf name location) table value table') :
    Backed bare table' ∧ (table'.value? name).isSome := by
  obtain ⟨last, hrun, hlast⟩ := run_valueOf name location table hbacked
  obtain rfl : last = table' := congrArg Prod.snd (hrun.symm.trans h)
  refine ⟨hlast, ?_⟩
  simp only [valueOf, valueWithin, yields_bind, yields_get] at h
  obtain ⟨_, _, ⟨rfl, rfl⟩, h⟩ := h
  rcases yields_valueOrFold h with ⟨hvalue, rfl⟩ | ⟨symbol, hfind, -, -, hfold⟩
  · rw [hvalue]
    rfl
  · obtain rfl := name_of_find? hfind
    split at hfold
    · exact absurd hfold yields_throw
    rw [foldConstant] at hfold
    split at hfold
    · exact absurd hfold yields_throw
    simp only [yields_bind, yields_get, yields_modify, yields_pure] at hfold
    obtain ⟨_, _, -, result, folded, -, -, _, rfl, rfl, rfl⟩ := hfold
    -- the constant is still there when its value is kept
    have hname := (hlast.find?_eq symbol.name).symm.trans (hbacked.find?_eq symbol.name)
    rw [hfind, Option.map_some, find?_setValue, if_pos rfl] at hname
    obtain ⟨_, hkept, -⟩ := Option.map_eq_some_iff.mp hname
    obtain ⟨old, hold, -⟩ := Option.map_eq_some_iff.mp hkept
    rw [value?, find?_setValue, if_pos rfl, hold]
    rfl

/-- Constants that are folded one after the other have answers, and values afterwards. -/
theorem answers_of_resolveEach {symbols : List Symbol} {u : Unit} {last : SymbolTable}
    (hbacked : Backed bare table) (h : Yields (resolveEach symbols) table u last) :
    Backed bare last ∧ ∀ symbol ∈ symbols, symbol.kind = .constant →
      (last.value? symbol.name).isSome ∧
        ∃ value, bare.answer (bare.symbols.length + 1) [] symbol.name symbol.location =
          .ok value := by
  induction symbols generalizing table with
  | nil =>
      obtain ⟨-, rfl⟩ := yields_pure.mp h
      exact ⟨hbacked, fun symbol hmem => by cases hmem⟩
  -- by induction on the symbols; a look-up stores the value of the constant that it finds
  | cons first rest ih =>
      rw [resolveEach] at h
      by_cases hfirst : first.kind = .constant
      · rw [if_pos hfirst] at h
        obtain ⟨value, table₁, hvalue, hrest⟩ := yields_bind.mp h
        obtain ⟨hbacked₁, hsome⟩ := isSome_value?_of_valueOf hbacked hvalue
        obtain ⟨hlast, hothers⟩ := ih hbacked₁ hrest
        refine ⟨hlast, fun symbol hmem hkind => ?_⟩
        rcases List.mem_cons.mp hmem with rfl | hmem
        -- a value that has been stored is not lost while the others are folded
        · obtain ⟨_, -, rfl, hsome'⟩ :=
            (lookup_valued symbol.name).follows_resolveEach rest _ _ _ _ ⟨rfl, hsome⟩ hrest
          obtain ⟨_, hrun, -⟩ := run_valueOf symbol.name symbol.location table hbacked
          exact ⟨hsome', value, congrArg Prod.fst (hrun.symm.trans hvalue)⟩
        · exact hothers symbol hmem hkind
      · rw [if_neg hfirst] at h
        obtain ⟨hlast, hothers⟩ := ih hbacked h
        refine ⟨hlast, fun symbol hmem hkind => ?_⟩
        rcases List.mem_cons.mp hmem with rfl | hmem
        · exact absurd hkind hfirst
        · exact hothers symbol hmem hkind

/-- Constants that have answers can be folded one after the other, in any order. -/
theorem exists_resolveEach {symbols : List Symbol} (hbacked : Backed bare table)
    (hanswers : ∀ symbol ∈ symbols, symbol.kind = .constant →
      ∃ value, bare.answer (bare.symbols.length + 1) [] symbol.name symbol.location = .ok value) :
    ∃ last, Yields (resolveEach symbols) table () last := by
  induction symbols generalizing table with
  | nil => exact ⟨table, yields_pure.mpr ⟨rfl, rfl⟩⟩
  | cons first rest ih =>
      have hothers := fun symbol hmem => hanswers symbol (List.mem_cons_of_mem first hmem)
      rw [resolveEach]
      by_cases hfirst : first.kind = .constant
      · rw [if_pos hfirst]
        obtain ⟨value, hvalue⟩ := hanswers first List.mem_cons_self hfirst
        -- an answer is what the table yields, whatever it has stored so far
        obtain ⟨table₁, hrun, hbacked₁⟩ := run_valueOf first.name first.location table hbacked
        obtain ⟨last, hrest⟩ := ih hbacked₁ hothers
        rw [hvalue] at hrun
        exact ⟨last, yields_bind.mpr ⟨value, table₁, hrun, hrest⟩⟩
      · rw [if_neg hfirst]
        exact ih hbacked hothers

/-- A symbol is known by its definition, and its value if it is a constant. -/
theorem eq_of_unfolded_eq {symbol symbol' : Symbol} (h : symbol'.unfolded = symbol.unfolded)
    (hvalue : symbol.kind = .constant → symbol'.value = symbol.value) : symbol' = symbol := by
  have hkind : symbol'.kind = symbol.kind := by
    rw [← Symbol.kind_unfolded, h, Symbol.kind_unfolded]
  by_cases hconstant : symbol.kind = .constant
  · rw [Symbol.unfolded, Symbol.unfolded, if_pos hconstant, if_pos (hkind.trans hconstant),
      Symbol.mk.injEq] at h
    obtain ⟨hname, -, -, hdefinition, hlocation⟩ := h
    cases symbol
    cases symbol'
    exact Symbol.mk.injEq .. ▸ ⟨hname, hkind, hvalue hconstant, hdefinition, hlocation⟩
  · rwa [Symbol.unfolded, Symbol.unfolded, if_neg hconstant, if_neg (hkind ▸ hconstant)] at h

/-- Every constant has a value once all have been folded. -/
theorem isSome_value_of_resolveEach {u : Unit} {last : SymbolTable} (h : Kept table)
    (hyields : Yields (resolveEach table.symbols) table u last)
    (hfind : last.find? name = some symbol) (hkind : symbol.kind = .constant) :
    symbol.value.isSome := by
  obtain ⟨hlast, hanswers⟩ := answers_of_resolveEach h hyields
  have hentered := (h.find?_eq name).symm.trans (hlast.find?_eq name)
  rw [hfind, Option.map_some] at hentered
  obtain ⟨entered, hentered, heq⟩ := Option.map_eq_some_iff.mp hentered
  have hconstant : entered.kind = .constant := by
    rw [← Symbol.kind_unfolded, heq, Symbol.kind_unfolded, hkind]
  obtain ⟨hsome, -⟩ := hanswers entered (List.mem_of_find?_eq_some hentered) hconstant
  rwa [name_of_find? hentered, value?_of_find? hfind] at hsome

/-- Two tables that have folded all their constants, and whose definitions are the same, have the same
entries. -/
theorem find?_eq_of_backed {bare' last last' : SymbolTable} (hbare : Shuffled bare bare')
    (hlast : Backed bare last) (hlast' : Backed bare' last')
    (hvalued : ∀ {name symbol}, last.find? name = some symbol → symbol.kind = .constant →
      symbol.value.isSome)
    (hvalued' : ∀ {name symbol}, last'.find? name = some symbol → symbol.kind = .constant →
      symbol.value.isSome) (name : String) : last'.find? name = last.find? name := by
  have hentries := (hlast'.find?_eq name).symm.trans ((hbare.find?_eq name).trans
    (hlast.find?_eq name))
  cases hfind : last.find? name with
  | none =>
      rw [hfind, Option.map_none, Option.map_eq_none_iff] at hentries
      exact hentries
  | some symbol =>
      rw [hfind, Option.map_some] at hentries
      obtain ⟨symbol', hfind', heq⟩ := Option.map_eq_some_iff.mp hentries
      rw [hfind', eq_of_unfolded_eq heq]
      intro hkind
      have hkind' : symbol'.kind = .constant := by
        rw [← Symbol.kind_unfolded, heq, Symbol.kind_unfolded, hkind]
      obtain ⟨value, hvalue⟩ := Option.isSome_iff_exists.mp (hvalued hfind hkind)
      obtain ⟨value', hvalue'⟩ := Option.isSome_iff_exists.mp (hvalued' hfind' hkind')
      -- both values are the answer that the definitions give
      have hanswer := answer_mono hlast'.bare_eq hbare.toExtends
        ((Context.nil bare name).answer_of_kept hlast hfind hkind hvalue none)
      have hanswer' := (Context.nil bare' name).answer_of_kept hlast' hfind' hkind' hvalue' none
      rw [hbare.perm.length_eq, hanswer] at hanswer'
      rw [hvalue, hvalue', Except.ok.inj hanswer']

/-- All constants can be folded in whatever order they were entered, and have the same values
then. -/
theorem follows_resolveAll : Follows Aligned resolveAll resolveAll := by
  intro table table' u last h hyields
  simp only [resolveAll, yields_bind, yields_get] at hyields ⊢
  obtain ⟨_, _, ⟨rfl, rfl⟩, hyields⟩ := hyields
  have hbare : Shuffled table.unfolded table'.unfolded := h.toShuffled.unfolded
  obtain ⟨hlast, hanswers⟩ := answers_of_resolveEach h.kept hyields
  -- the definitions are the same, so the other table has the same answers
  have hanswers' : ∀ symbol ∈ table'.symbols, symbol.kind = .constant →
      ∃ value, table'.unfolded.answer (table'.unfolded.symbols.length + 1) [] symbol.name
        symbol.location = .ok value := by
    intro symbol hmem hkind
    obtain ⟨-, value, hvalue⟩ := hanswers symbol (h.perm.mem_iff.mp hmem) hkind
    rw [hbare.perm.length_eq]
    exact ⟨value, answer_mono (unfolded_unfolded table') hbare.toExtends hvalue⟩
  obtain ⟨last', hyields'⟩ := exists_resolveEach h.kept' hanswers'
  obtain ⟨hlast', -⟩ := answers_of_resolveEach h.kept' hyields'
  have hfind := find?_eq_of_backed hbare hlast hlast'
    (isSome_value_of_resolveEach h.kept hyields) (isSome_value_of_resolveEach h.kept' hyields')
  refine ⟨last', ⟨table', table', ⟨rfl, rfl⟩, hyields'⟩, .of_find? hlast.nodup hlast'.nodup hfind ?_,
    hlast.kept, hlast'.kept⟩
  -- everything but the symbols comes from the tables without values
  have hrest : { last' with symbols := [] } = { last with symbols := [] } := by
    calc { last' with symbols := [] } = { last'.unfolded with symbols := [] } := rfl
      _ = { table'.unfolded with symbols := [] } := by rw [hlast'.unfolded_eq]
      _ = { table.unfolded with symbols := [] } := by rw [hbare.rest_eq]
      _ = { last.unfolded with symbols := [] } := by rw [hlast.unfolded_eq]
      _ = { last with symbols := [] } := rfl
  exact congrArg (fun rest : SymbolTable => { rest with symbols := last'.symbols }) hrest

end SymbolTable

/-! ## The stages -/

open SymbolTable

/-- Entering constants appends them, if their names are new. -/
theorem Layout.yields_defineConstants {statements : List Statement} {table table' : SymbolTable}
    {u : Unit} (hnodup : (table.symbols.map Symbol.name).Nodup) :
    Yields (defineConstants statements) table u table' ↔
      table' = { table with symbols := table.symbols ++ statements.filterMap Statement.entry? } ∧
        (table'.symbols.map Symbol.name).Nodup := by
  induction statements generalizing table with
  | nil =>
      rw [defineConstants, yields_pure, List.filterMap_nil, List.append_nil]
      constructor
      · rintro ⟨-, rfl⟩
        exact ⟨rfl, hnodup⟩
      · rintro ⟨rfl, -⟩
        exact ⟨rfl, rfl⟩
  -- constants enter at the end of the table; everything else is passed by
  | cons statement rest ih =>
      cases statement with
      | label name location => exact ih hnodup
      | item body location => exact ih hnodup
      | constant keyword name value location =>
          rw [List.filterMap_cons_some (by rfl)]
          simp only [defineConstants, yields_bind, yields_update, defineConstant]
          constructor
          · rintro ⟨_, table₁, hdefine, hrest⟩
            obtain ⟨rfl, hlast⟩ := (ih (nodup_define hdefine hnodup)).mp hrest
            obtain ⟨-, rfl⟩ := define_eq_ok.mp hdefine
            exact ⟨by simp, hlast⟩
          · rintro ⟨rfl, hlast⟩
            -- a name that comes again would not be new
            have hnew : table.find? name = none := by
              rw [find?_eq_none]
              intro symbol hmem heq
              have hnames := hlast
              rw [List.map_append, List.nodup_append] at hnames
              exact hnames.2.2 symbol.name (List.mem_map_of_mem hmem) name (by simp) heq
            have hdefine : table.defineConstant name value (some location) = .ok _ :=
              define_eq_ok.mpr ⟨hnew, rfl⟩
            exact ⟨(), _, hdefine, (ih (nodup_define hdefine hnodup)).mpr ⟨by simp, hlast⟩⟩

section Stages

variable {statements statements' : List Statement} (h : Rearranged statements statements')

include h

/-- The first walk enters the constants of both programs. -/
theorem Layout.follows_defineConstants_rearranged :
    Follows Aligned (defineConstants statements) (defineConstants statements') := by
  intro table table' u last haligned hyields
  obtain ⟨rfl, hnodup⟩ := (yields_defineConstants haligned.nodup).mp hyields
  have hshuffled := haligned.toShuffled.append h.entries_perm hnodup
  have hyields' := (yields_defineConstants (u := u) haligned.nodup').mpr ⟨rfl, hshuffled.nodup'⟩
  exact ⟨_, hyields', hshuffled,
    haligned.kept.of_follows (follows_defineConstants simulation_aligned _) hyields,
    haligned.kept'.of_follows (follows_defineConstants simulation_aligned _) hyields'⟩

/-- The first pass of one program is followed by that of the other. -/
theorem Layout.follows_resolve_rearranged (limit : Int) (withEntryJump : Bool) :
    Follows Aligned (resolve limit withEntryJump statements)
      (resolve limit withEntryJump statements') := by
  unfold resolve
  simp only [h.startsWithData_eq, h.placeItems_eq]
  exact (follows_defineConstants_rearranged h).bind fun _ =>
    (follows_placeItems simulation_aligned le_rfl _ [] statements).bind fun _ => .ret _

namespace Assembly

/-- So is the check of the names. -/
theorem follows_checkNames_rearranged :
    Follows Aligned (checkNames statements) (checkNames statements') := by
  refine Follows.bind (.change fun table table' haligned => ?_) fun _ =>
    .read fun table table' haligned => ?_
  · have hmentions : noteMentions table' statements' = noteMentions table' statements := by
      rw [noteMentions, noteMentions, h.mentions_eq]
    rw [hmentions, noteMentions_congr rfl, noteMentions_congr haligned.mentioned_eq]
    exact ⟨⟨haligned.perm, haligned.nodup, by rw [haligned.rest_eq]⟩,
      haligned.kept.of_symbols rfl rfl rfl, haligned.kept'.of_symbols rfl rfl rfl⟩
  · exact Follows.bind (.lift fun _ => checkMentions_of_shuffled haligned.toShuffled) fun _ =>
      follows_resolveAll

omit h in
/-- The command line stores no values of constants. -/
theorem kept_definePredefined {table table' : SymbolTable} {defines : Defines} (hkept : Kept table)
    (hdefine : definePredefined table defines = .ok table') : Kept table' := by
  induction defines generalizing table with
  | nil =>
      obtain rfl := Except.ok.inj hdefine
      exact hkept
  | cons first rest ih =>
      obtain ⟨table₁, hfirst, hrest⟩ := bind_eq_ok.mp hdefine
      exact ih (hkept.define (fun _ => rfl) hfirst) hrest

omit h in
/-- The image of a table in another order. -/
theorem yields_buildImage_shuffled {config : Config} {size tempBase : Int}
    {contents : List (Item × Content)} {table table' final : SymbolTable} {image : Image}
    (htables : Shuffled table table')
    (hbuild : Yields (buildImage config size tempBase contents) table image final) :
    ∃ symbols kinds final', Yields (buildImage config size tempBase contents) table'
        { image with symbols, kinds } final' ∧
      symbols.Perm image.symbols ∧ kinds.Perm image.kinds ∧
      OrderedMap.get? symbols = image.value? := by
  simp only [buildImage, yields_bind, yields_get, yields_liftM, yields_pure] at hbuild ⊢
  obtain ⟨rows, built, hrows, _, _, ⟨hlisting, rfl⟩, _, _, ⟨rfl, rfl⟩, rfl, rfl⟩ := hbuild
  obtain ⟨final', hrows', hfinal⟩ :=
    follows_itemsRows simulation_shuffled contents _ _ _ _ htables hrows
  have hresolved : final'.resolved.Perm built.resolved := hfinal.perm.filterMap _
  refine ⟨_, _, final', ⟨rows, final', hrows', _, _, ⟨hlisting, rfl⟩, _, _, ⟨rfl, rfl⟩, ?_, rfl⟩,
    hresolved.map fun pair => (pair.1.name, pair.2),
    hresolved.map fun pair => (pair.1.name, pair.1.kind.name), ?_⟩
  · rw [hfinal.pool_eq]
  · funext name
    rw [Image.value?, lookup_resolved (fun _ value => value) hfinal.nodup',
      lookup_resolved (fun _ value => value) hfinal.nodup, hfinal.find?_eq]

/-- The position of constants does not matter: a program whose constants stand elsewhere and in another
order is assembled whenever the program is, with the same reports and into the same image, in which
only the symbols stand in another order. -/
theorem ofStatements_rearranged {config : Config} {defines : Defines} {image : Image}
    {reports reports' : List Progress}
    (hassembled : (ofStatements config defines statements).run reports = (.ok image, reports')) :
    ∃ symbols kinds,
      (ofStatements config defines statements').run reports =
        (.ok { image with symbols, kinds }, reports') ∧
      symbols.Perm image.symbols ∧ kinds.Perm image.kinds ∧
      ∀ name, OrderedMap.get? symbols name = OrderedMap.get? image.symbols name := by
  have hyields : Yields (ofStatements config defines statements) reports image reports' :=
    hassembled
  simp only [ofStatements, yields_bind, yields_liftM, yields_report, yields_pure] at hyields
  obtain ⟨arith, _, ⟨harith, rfl⟩, predefined, _, ⟨hpredefined, rfl⟩, ⟨layout, placed⟩, _, hresolve,
    _, _, rfl, ⟨_, checked⟩, _, hcheck, ⟨contents, expanded⟩, _, hexpand, _, _, rfl,
    ⟨size, layout', stored⟩, _, hstore, _, _, rfl, ⟨_, final⟩, _, hbuild, rfl, rfl⟩ := hyields
  rw [yields_stage] at hresolve hcheck hexpand hstore hbuild
  obtain ⟨hresolve, rfl⟩ := hresolve
  obtain ⟨hcheck, rfl⟩ := hcheck
  obtain ⟨hexpand, rfl⟩ := hexpand
  obtain ⟨hstore, rfl⟩ := hstore
  obtain ⟨hbuild, rfl⟩ := hbuild
  -- the command line defines no constants that are folded already
  have hkept : Kept predefined := kept_definePredefined (backed_empty arith).kept hpredefined
  -- the stages are followed one by one, first by aligned tables and then by shuffled ones
  obtain ⟨placed', hresolve', haligned⟩ :=
    Layout.follows_resolve_rearranged h _ _ _ _ _ _ hkept.aligned hresolve
  obtain ⟨checked', hcheck', haligned⟩ :=
    follows_checkNames_rearranged h _ _ _ _ haligned hcheck
  obtain ⟨expanded', hexpand', hshuffled⟩ :=
    Item.follows_contents simulation_shuffled _ _ _ _ _ haligned.toShuffled hexpand
  -- placing the pool stores the same addresses in both
  have hplace : ∀ {table table'}, Shuffled table table' → ∀ base,
      Shuffled (table.placePool base) (table'.placePool base) :=
    fun h => lookup_shuffled.placePool Shuffled.withPool h h.pool_eq
  obtain ⟨⟨_, stored'⟩, hstore', rfl, hstored⟩ := Layout.follows_placeStorage simulation_shuffled
    hplace le_rfl (layout, expanded) (layout, expanded') _ _ ⟨rfl, hshuffled⟩ hstore
  obtain ⟨symbols, kinds, final', hbuild', hsymbols, hkinds, hvalues⟩ :=
    yields_buildImage_shuffled hstored hbuild
  refine ⟨symbols, kinds, ?_, hsymbols, hkinds, fun name => congrFun hvalues name⟩
  show Yields (ofStatements config defines statements') _ _ _
  simp only [ofStatements, yields_bind, yields_liftM, yields_report, yields_pure]
  refine ⟨arith, _, ⟨harith, rfl⟩, predefined, _, ⟨hpredefined, rfl⟩, (layout, placed'), _,
    yields_stage.mpr ⟨hresolve', rfl⟩, (), _, rfl, ((), checked'), _,
    yields_stage.mpr ⟨hcheck', rfl⟩, (contents, expanded'), _, yields_stage.mpr ⟨hexpand', rfl⟩, (),
    _, rfl, (size, _, stored'), _, yields_stage.mpr ⟨hstore', rfl⟩, (), _, rfl, (_, final'), _,
    yields_stage.mpr ⟨hbuild', rfl⟩, rfl, ?_⟩
  rw [hshuffled.pool_eq, hstored.pool_eq]

end Assembly

end Stages

/-! ## A program

The number of its reserved cells is a constant that is defined through another one. -/

namespace Assembly

/-- Adds a constant to the first of the cells.  The constants stand where they are needed. -/
def spreadProgram (place : Location) : List Statement :=
  [.constant .equ "cells" (.bin .mul (.sym "rows" none) (.sym "step" none)) place,
    .label "table" place, .item (.reserve .quad (.sym "cells" none)) place,
    .constant .define "rows" (.num 2 none) place, .label "start" place,
    .item (.operation (.add ⟨.memory (.sym "table" none), place⟩
      ⟨.immediate (.sym "rows" none), place⟩)) place]

/-- The same program with its constants at the end, in the order of their values. -/
def gatheredProgram (place : Location) : List Statement :=
  [.label "table" place, .item (.reserve .quad (.sym "cells" none)) place, .label "start" place,
    .item (.operation (.add ⟨.memory (.sym "table" none), place⟩
      ⟨.immediate (.sym "rows" none), place⟩)) place,
    .constant .define "rows" (.num 2 none) place,
    .constant .equ "cells" (.bin .mul (.sym "rows" none) (.sym "step" none)) place]

/-- What stands after the constants in both tables of symbols: the labels, a literal, and the temp
fields. -/
def spreadPlaces : OrderedMap String Int :=
  [("table", 3), ("start", 9), ("=-2", 12), ("$t", 13), ("$e", 14), ("$r", 15)]

/-- Both programs have the same cells, and only the two constants change places. -/
theorem ofStatements_rearranged_spread :
    ∃ image symbols kinds reports,
      (ofStatements {} [("step", 3)] (spreadProgram .predefined)).run [] = (.ok image, reports) ∧
      (ofStatements {} [("step", 3)] (gatheredProgram .predefined)).run [] =
        (.ok { image with symbols, kinds }, reports) ∧
      image.cells = [13, 13, 9, 0, 0, 0, 0, 0, 0, 12, 3, 12, -2, 0, 0, 0] ∧
      image.symbols = [("step", 3), ("cells", 6), ("rows", 2)] ++ spreadPlaces ∧
      symbols = [("step", 3), ("rows", 2), ("cells", 6)] ++ spreadPlaces ∧
      symbols.Perm image.symbols ∧ kinds.Perm image.kinds ∧
      ∀ name, OrderedMap.get? symbols name = OrderedMap.get? image.symbols name := by
  have hrearranged :
      Rearranged (spreadProgram .predefined) (gatheredProgram .predefined) :=
    ⟨by decide, by decide⟩
  -- both assemblies are evaluated; that they correspond is the theorem
  have hspread : ((ofStatements {} [("step", 3)] (spreadProgram .predefined)).run []).1.map
      (fun image => (image.cells, image.symbols)) =
        .ok ([13, 13, 9, 0, 0, 0, 0, 0, 0, 12, 3, 12, -2, 0, 0, 0],
          [("step", 3), ("cells", 6), ("rows", 2)] ++ spreadPlaces) := by
    decide +kernel
  have hgathered : ((ofStatements {} [("step", 3)] (gatheredProgram .predefined)).run []).1.map
      Image.symbols = .ok ([("step", 3), ("rows", 2), ("cells", 6)] ++ spreadPlaces) := by
    decide +kernel
  rcases hrun : (ofStatements {} [("step", 3)] (spreadProgram .predefined)).run [] with
    ⟨fault | image, reports⟩
  · rw [hrun] at hspread
    cases hspread
  · obtain ⟨symbols, kinds, hassembled, hrest⟩ := ofStatements_rearranged hrearranged hrun
    rw [hrun] at hspread
    rw [hassembled] at hgathered
    obtain ⟨hcells, hsymbols⟩ := Prod.ext_iff.mp (Except.ok.inj hspread)
    exact ⟨image, symbols, kinds, reports, rfl, hassembled, hcells, hsymbols,
      Except.ok.inj hgathered, hrest⟩

end Assembly

end Subleq
