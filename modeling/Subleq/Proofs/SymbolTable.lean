import Subleq.Proofs.Evaluation
import Subleq.SymbolTable

/-!
# Tables that only grow

A symbol table is seen through the environment of its known values, `SymbolTable.value?`.
`Extends` is what every step of assembly does to it: symbols stay, with their kinds, their
definitions and the values that they have, so that the environment grows.

`Sound` is the invariant.  Names are defined once, every symbol has a value in the range of its
kind, and every constant that has a value has that of its own definition.  The last part is about
the table as it is now; it stays true because environments grow.
-/

namespace Subleq

/-- Which values symbols of each kind may have.  They fit into a cell, and a constant may have every
value that does. -/
structure ValueRange (width : Width) where
  Holds : SymbolKind → Int → Prop
  fits : ∀ {kind : SymbolKind} {x : Int}, Holds kind x → width.Fits x
  constant : ∀ {x : Int}, width.Fits x → Holds .constant x

namespace SymbolTable

variable {table table' table'' : SymbolTable} {name : String} {symbol : Symbol} {value : Int}

/-! ## Looking up -/

def value? (table : SymbolTable) : Environment := fun name => (table.find? name).bind Symbol.value

/-- A value that is found is that of a symbol. -/
theorem value?_eq_some :
    table.value? name = some value ↔
      ∃ symbol, table.find? name = some symbol ∧ symbol.value = some value :=
  Option.bind_eq_some_iff

/-- A symbol is found under its own name. -/
theorem name_of_find? (h : table.find? name = some symbol) : symbol.name = name := by
  simpa using List.find?_some h

/-- A name under which a symbol is found is among the names of the table. -/
theorem mem_names_of_find? (h : table.find? name = some symbol) :
    name ∈ table.symbols.map Symbol.name := by
  obtain rfl := name_of_find? h
  exact List.mem_map_of_mem (List.mem_of_find?_eq_some h)

/-- The value of a name is that of its symbol. -/
theorem value?_of_find? (h : table.find? name = some symbol) :
    table.value? name = symbol.value := by
  rw [value?, h, Option.bind_some]

/-- A name is not found exactly if no symbol has it. -/
theorem find?_eq_none : table.find? name = none ↔ ∀ symbol ∈ table.symbols, symbol.name ≠ name := by
  simp [find?]

/-- Where names are defined once, a member of the table is what its name is looked up to. -/
theorem find?_of_mem (hnodup : (table.symbols.map Symbol.name).Nodup) (h : symbol ∈ table.symbols) :
    table.find? symbol.name = some symbol := by
  cases hfind : table.find? symbol.name with
  | none => exact absurd rfl (find?_eq_none.mp hfind symbol h)
  | some other =>
      have hmem : other ∈ table.symbols := List.mem_of_find?_eq_some hfind
      rw [List.inj_on_of_nodup_map hnodup hmem h (name_of_find? hfind)]

/-! ## Changing a table -/

/-- Entering a symbol puts it at the end, if its name is new. -/
theorem define_eq_ok :
    table.define symbol = .ok table' ↔
      table.find? symbol.name = none ∧
        table' = { table with symbols := table.symbols ++ [symbol] } := by
  rw [define]
  cases table.find? symbol.name with
  | none => simp [eq_comm]
  | some _ => simp

/-- A definition is found under its name, and nothing else has changed. -/
theorem find?_define (h : table.define symbol = .ok table') (name : String) :
    table'.find? name = if name = symbol.name then some symbol else table.find? name := by
  obtain ⟨hnew, rfl⟩ := define_eq_ok.mp h
  show (table.symbols ++ [symbol]).find? (·.name == name) = _
  rw [List.find?_append]
  split
  · next heq =>
    subst heq
    rw [show table.symbols.find? (·.name == symbol.name) = none from hnew]
    simp
  · next hne => simp [find?, Ne.symm hne]

/-- Names stay different, since a name that is taken is refused. -/
theorem nodup_define (h : table.define symbol = .ok table')
    (hnodup : (table.symbols.map Symbol.name).Nodup) :
    (table'.symbols.map Symbol.name).Nodup := by
  obtain ⟨hnew, rfl⟩ := define_eq_ok.mp h
  show ((table.symbols ++ [symbol]).map Symbol.name).Nodup
  rw [List.map_append, List.map_singleton, List.nodup_append_comm, List.singleton_append,
    List.nodup_cons]
  refine ⟨?_, hnodup⟩
  rw [List.mem_map]
  rintro ⟨other, hmem, heq⟩
  exact find?_eq_none.mp hnew other hmem heq

/-- A stored value is found with its symbol, and nothing else has changed. -/
theorem find?_setValue (table : SymbolTable) (target name : String) (value : Int) :
    (table.setValue target value).find? name =
      if name = target then (table.find? name).map ({ · with value := some value })
      else table.find? name := by
  -- names do not change, so the same symbol is found
  have hcomp : ((·.name == name) ∘ fun symbol : Symbol =>
      if symbol.name == target then { symbol with value := some value } else symbol) =
      (·.name == name) := by
    funext symbol
    rw [Function.comp_apply]
    split <;> rfl
  rw [find?, setValue, List.find?_map, hcomp]
  show (table.find? name).map _ = _
  cases hfind : table.find? name with
  | none => simp
  | some symbol =>
      rw [Option.map_some, Option.map_some, name_of_find? hfind]
      by_cases heq : name = target <;> simp [heq]

/-- Storing a value does not change the names. -/
theorem names_setValue (table : SymbolTable) (target : String) (value : Int) :
    (table.setValue target value).symbols.map Symbol.name = table.symbols.map Symbol.name := by
  rw [setValue, List.map_map]
  refine List.map_congr_left fun symbol _ => ?_
  rw [Function.comp_apply]
  split <;> rfl

/-! ## Tables that extend others -/

/-- Every symbol stays, and keeps its kind, its definition and the value that it has. -/
structure Extends (table table' : SymbolTable) : Prop where
  arith_eq : table'.arith = table.arith
  find : ∀ {name symbol}, table.find? name = some symbol →
    ∃ symbol', table'.find? name = some symbol' ∧ symbol'.kind = symbol.kind ∧
      symbol'.definition = symbol.definition ∧
      ∀ value, symbol.value = some value → symbol'.value = some value

namespace Extends

theorem refl (table : SymbolTable) : Extends table table :=
  ⟨rfl, fun h => ⟨_, h, rfl, rfl, fun _ hv => hv⟩⟩

/-- Extensions may be put one after the other. -/
theorem trans (h : Extends table table') (h' : Extends table' table'') : Extends table table'' := by
  refine ⟨h'.arith_eq.trans h.arith_eq, fun hfind => ?_⟩
  obtain ⟨symbol', hfind', hkind, hdef, hvalue⟩ := h.find hfind
  obtain ⟨symbol'', hfind'', hkind', hdef', hvalue'⟩ := h'.find hfind'
  exact ⟨symbol'', hfind'', hkind'.trans hkind, hdef'.trans hdef,
    fun value hv => hvalue' value (hvalue value hv)⟩

/-- The environment of an extended table is larger. -/
theorem le (h : Extends table table') : table.value?.Le table'.value? := by
  intro name value hv
  obtain ⟨symbol, hfind, hvalue⟩ := value?_eq_some.mp hv
  obtain ⟨symbol', hfind', -, -, hvalue'⟩ := h.find hfind
  exact value?_eq_some.mpr ⟨symbol', hfind', hvalue' value hvalue⟩

/-- Only the symbols and the arithmetic of a table matter. -/
theorem of_symbols (harith : table'.arith = table.arith)
    (hsymbols : table'.symbols = table.symbols) : Extends table table' := by
  refine ⟨harith, fun {name symbol} h => ⟨symbol, ?_, rfl, rfl, fun _ hv => hv⟩⟩
  rw [find?, hsymbols]
  exact h

/-- A definition extends the table. -/
theorem define (h : table.define symbol = .ok table') : Extends table table' := by
  refine ⟨by rw [(define_eq_ok.mp h).2], fun {name other} hfind => ⟨other, ?_, rfl, rfl, ?_⟩⟩
  · rw [find?_define h, if_neg, hfind]
    rintro rfl
    rw [(define_eq_ok.mp h).1] at hfind
    cases hfind
  · exact fun _ hv => hv

/-- Giving a value to a symbol that has none extends the table. -/
theorem setValue (h : table.value? name = none) : Extends table (table.setValue name value) := by
  refine ⟨rfl, fun {other symbol} hfind => ?_⟩
  rw [find?_setValue]
  split
  · next heq =>
    subst heq
    rw [value?_of_find? hfind] at h
    refine ⟨{ symbol with value := some value }, by rw [hfind, Option.map_some], rfl, rfl, ?_⟩
    intro old hold
    rw [h] at hold
    cases hold
  · exact ⟨symbol, hfind, rfl, rfl, fun _ hv => hv⟩

end Extends

/-! ## Soundness -/

variable {width : Width} {range : ValueRange width}

/-- The invariant of the tables of assembly. -/
structure Sound (range : ValueRange width) (table : SymbolTable) : Prop where
  width_eq : table.arith.width = width
  bindings_eq : table.bindings = []
  nodup : (table.symbols.map Symbol.name).Nodup
  holds : ∀ {name symbol value}, table.find? name = some symbol → symbol.value = some value →
    range.Holds symbol.kind value
  folded : ∀ {name symbol}, table.find? name = some symbol → symbol.kind = .constant →
    ∃ definition, symbol.definition = some definition ∧
      ∀ value, symbol.value = some value → definition.eval width table.value? none = some value

namespace Sound

/-- Nothing is wrong with a table that has defined nothing. -/
theorem empty {arith : Arithmetic} (range : ValueRange arith.width) :
    Sound range (SymbolTable.empty arith) where
  width_eq := rfl
  bindings_eq := rfl
  nodup := List.nodup_nil
  holds h := by cases h
  folded h := by cases h

/-- Only the symbols, the bindings and the arithmetic of a table matter. -/
theorem of_symbols (h : Sound range table) (harith : table'.arith = table.arith)
    (hbindings : table'.bindings = table.bindings) (hsymbols : table'.symbols = table.symbols) :
    Sound range table' := by
  have hfind : ∀ name, table'.find? name = table.find? name := fun name => by
    rw [find?, hsymbols]; rfl
  have hvalue : table'.value? = table.value? := by
    funext name
    rw [value?, hfind]
    rfl
  refine ⟨harith ▸ h.width_eq, hbindings.trans h.bindings_eq, hsymbols ▸ h.nodup, ?_, ?_⟩
  · intro name symbol value hsymbol
    exact h.holds (hfind name ▸ hsymbol)
  · intro name symbol hsymbol hkind
    rw [hvalue]
    exact h.folded (hfind name ▸ hsymbol) hkind

/-- The values of a table fit into a cell. -/
theorem fits_value? (h : Sound range table) (hv : table.value? name = some value) :
    width.Fits value := by
  obtain ⟨symbol, hfind, hvalue⟩ := value?_eq_some.mp hv
  exact range.fits (h.holds hfind hvalue)

/-- A definition that is in range keeps the table sound. -/
theorem define (h : Sound range table) (hdefine : table.define symbol = .ok table')
    (hholds : ∀ value, symbol.value = some value → range.Holds symbol.kind value)
    (hconstant : symbol.kind = .constant →
      symbol.value = none ∧ ∃ definition, symbol.definition = some definition) :
    Sound range table' := by
  have hext := Extends.define hdefine
  have htable := (define_eq_ok.mp hdefine).2
  -- the five parts of the invariant in order
  refine ⟨?_, ?_, ?_, ?_, ?_⟩
  · rw [hext.arith_eq, h.width_eq]
  · rw [htable]
    exact h.bindings_eq
  · exact nodup_define hdefine h.nodup
  · intro name other value hfind hvalue
    rw [find?_define hdefine] at hfind
    split at hfind
    · obtain rfl := Option.some.inj hfind
      exact hholds value hvalue
    · exact h.holds hfind hvalue
  · intro name other hfind hkind
    rw [find?_define hdefine] at hfind
    split at hfind
    · obtain rfl := Option.some.inj hfind
      obtain ⟨hnone, definition, hdef⟩ := hconstant hkind
      refine ⟨definition, hdef, fun value hv => ?_⟩
      rw [hnone] at hv
      cases hv
    -- older constants were folded in a smaller environment
    · obtain ⟨definition, hdef, heval⟩ := h.folded hfind hkind
      exact ⟨definition, hdef, fun value hv => definition.eval_mono hext.le (heval value hv)⟩

/-- Giving a value to a symbol that has none keeps the table sound, if the value is in range, and is
that of the definition in the case of a constant. -/
theorem setValue (h : Sound range table) (hfind : table.find? name = some symbol)
    (hnone : symbol.value = none) (hholds : range.Holds symbol.kind value)
    (heval : ∀ definition, symbol.kind = .constant → symbol.definition = some definition →
      definition.eval width table.value? none = some value) :
    Sound range (table.setValue name value) := by
  have hext : Extends table (table.setValue name value) :=
    Extends.setValue (by rw [value?_of_find? hfind, hnone])
  -- the other symbols are as they were; the one that is set meets the conditions
  refine ⟨h.width_eq, h.bindings_eq, ?_, ?_, ?_⟩
  · rw [names_setValue]
    exact h.nodup
  · intro other symbol' value' hfind' hvalue'
    rw [find?_setValue] at hfind'
    split at hfind'
    · next heq =>
      subst heq
      rw [hfind, Option.map_some] at hfind'
      obtain rfl := Option.some.inj hfind'
      obtain rfl := Option.some.inj hvalue'
      exact hholds
    · exact h.holds hfind' hvalue'
  · intro other symbol' hfind' hkind'
    rw [find?_setValue] at hfind'
    split at hfind'
    · next heq =>
      subst heq
      rw [hfind, Option.map_some] at hfind'
      obtain rfl := Option.some.inj hfind'
      obtain ⟨definition, hdef, -⟩ := h.folded hfind hkind'
      refine ⟨definition, hdef, fun value' hv => ?_⟩
      obtain rfl := Option.some.inj hv
      exact definition.eval_mono hext.le (heval definition hkind' hdef)
    · obtain ⟨definition, hdef, heval'⟩ := h.folded hfind' hkind'
      exact ⟨definition, hdef, fun value' hv => definition.eval_mono hext.le (heval' value' hv)⟩

end Sound

end SymbolTable

end Subleq
