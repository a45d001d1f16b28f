import Subleq.Proofs.SymbolTable

/-!
# Folding constants on demand

Asking for a value folds the constants that it depends on, and keeps what it has folded: some
constants that had no value get one, and nothing else changes (`Folds`).  The value of an expression
is the plain one in the table that its evaluation leaves (`SymbolTable.evaluate_sound`).

The proofs go by the rounds of `SymbolTable.valueWithin`.  What they have to carry is that the
constants which are being folded stay without a value until their own definition has one (`Keeps`):
a constant that is asked for again on the way is refused as circular, so the value that is put at
the end is never put over another one.
-/

namespace Subleq.SymbolTable

open Folding

variable {table table' table'' : SymbolTable} {name : String} {symbol : Symbol} {value : Int}
  {location : Option Location} {width : Width} {range : ValueRange width}

/-! ## What asking for a value changes -/

/-- Some constants that had no value have one, and nothing else has changed. -/
structure Folds (table table' : SymbolTable) : Prop where
  rest_eq : table' = { table with symbols := table'.symbols }
  names_eq : table'.symbols.map Symbol.name = table.symbols.map Symbol.name
  find : ∀ name, table'.find? name = table.find? name ∨
    ∃ symbol value, table.find? name = some symbol ∧ symbol.kind = .constant ∧
      symbol.value = none ∧ table'.find? name = some { symbol with value := some value }

namespace Folds

theorem refl (table : SymbolTable) : Folds table table := ⟨rfl, rfl, fun _ => .inl rfl⟩

/-- Looking values up does not change the arithmetic. -/
theorem arith_eq (h : Folds table table') : table'.arith = table.arith := by rw [h.rest_eq]

theorem pool_eq (h : Folds table table') : table'.pool = table.pool := by rw [h.rest_eq]

/-- Look-ups one after the other are one. -/
theorem trans (h : Folds table table') (h' : Folds table' table'') : Folds table table'' := by
  refine ⟨?_, h'.names_eq.trans h.names_eq, fun name => ?_⟩
  · rw [h'.rest_eq, h.rest_eq]
  · rcases h.find name with heq | ⟨symbol, value, hfind, hkind, hnone, hfind'⟩
    · rcases h'.find name with heq' | ⟨symbol, value, hfind, hkind, hnone, hfind'⟩
      · exact .inl (heq'.trans heq)
      · exact .inr ⟨symbol, value, heq ▸ hfind, hkind, hnone, hfind'⟩
    · rcases h'.find name with heq' | ⟨symbol', value', hfind'', -, hnone', -⟩
      · exact .inr ⟨symbol, value, hfind, hkind, hnone, heq'.trans hfind'⟩
      · -- the constant has a value already
        rw [hfind'] at hfind''
        obtain rfl := Option.some.inj hfind''
        cases hnone'

/-- A symbol that is no constant stays as it is. -/
theorem find_of_ne_constant (h : Folds table table') (hfind : table.find? name = some symbol)
    (hkind : symbol.kind ≠ .constant) : table'.find? name = some symbol := by
  rcases h.find name with heq | ⟨other, _, hother, hkind', -, -⟩
  · rw [heq, hfind]
  · rw [hfind] at hother
    obtain rfl := Option.some.inj hother
    exact absurd hkind' hkind

/-- A value that is known stays known, with nothing but constants added. -/
theorem toExtends (h : Folds table table') : Extends table table' := by
  refine ⟨h.arith_eq, fun {name symbol} hfind => ?_⟩
  rcases h.find name with heq | ⟨other, value, hother, -, hnone, hfind'⟩
  · exact ⟨symbol, heq.trans hfind, rfl, rfl, fun _ hv => hv⟩
  · rw [hfind] at hother
    obtain rfl := Option.some.inj hother
    refine ⟨_, hfind', rfl, rfl, fun _ hv => ?_⟩
    rw [hnone] at hv
    cases hv

/-- A symbol that still has no value is unchanged. -/
theorem find_of_value?_eq_none (h : Folds table table') (hfind : table.find? name = some symbol)
    (hnone : table'.value? name = none) : table'.find? name = some symbol := by
  rcases h.find name with heq | ⟨other, value, -, -, -, hfind'⟩
  · exact heq.trans hfind
  · rw [value?_of_find? hfind'] at hnone
    cases hnone

/-- To store the value of a constant that has none yet is a look-up. -/
theorem setValue (hfind : table.find? name = some symbol) (hkind : symbol.kind = .constant)
    (hnone : symbol.value = none) : Folds table (table.setValue name value) := by
  refine ⟨rfl, names_setValue .., fun other => ?_⟩
  rw [find?_setValue]
  split
  · next heq =>
    subst heq
    exact .inr ⟨symbol, value, hfind, hkind, hnone, by rw [hfind, Option.map_some]⟩
  · exact .inl rfl

end Folds

/-- Names that keep the value that they have, or keep having none. -/
def Keeps (names : List String) (table table' : SymbolTable) : Prop :=
  ∀ name ∈ names, table'.value? name = table.value? name

/-! ## Values -/

/-- Nothing is bound from outside during assembly. -/
theorem yields_resolveWith {resolve : String → Option Location → Folding SymbolTable Int}
    (hbindings : table.bindings = [])
    (h : Yields (resolveWith resolve name location) table value table') :
    Yields (resolve name location) table value table' := by
  simp only [resolveWith, yields_bind, yields_get] at h
  obtain ⟨_, _, ⟨rfl, rfl⟩, h⟩ := h
  rw [hbindings] at h
  exact h

/-- A name that has a value gives it, and a constant that has none is folded. -/
theorem yields_valueOrFold {fold : Symbol → Folding SymbolTable Int}
    (h : Yields (valueOrFold fold name location) table value table') :
    (table.value? name = some value ∧ table' = table) ∨
      ∃ symbol, table.find? name = some symbol ∧ symbol.kind = .constant ∧ symbol.value = none ∧
        Yields (fold symbol) table value table' := by
  simp only [valueOrFold, yields_bind, yields_get] at h
  obtain ⟨_, _, ⟨rfl, rfl⟩, h⟩ := h
  split at h
  · exact absurd h yields_throw
  · next symbol hfind =>
    split at h
    · next known hknown =>
      obtain ⟨rfl, rfl⟩ := yields_pure.mp h
      exact .inl ⟨value?_eq_some.mpr ⟨symbol, hfind, hknown⟩, rfl⟩
    · next hnone =>
      split at h
      · exact absurd h yields_throw
      · next hkind => exact .inr ⟨symbol, hfind, not_not.mp hkind, hnone, h⟩

/-- One round: if the names of a definition get sound values without touching the constant itself,
folding the constant gives it the value of its definition. -/
theorem foldConstant_sound {resolve : String → Option Location → Folding SymbolTable Int}
    {folding : List String}
    (hresolve : ∀ {name location value table table'}, Sound range table →
      Yields (resolve name location) table value table' →
      Sound range table' ∧ Folds table table' ∧ Keeps (folding ++ [symbol.name]) table table' ∧
        table'.value? name = some value)
    (hsound : Sound range table) (hfind : table.find? symbol.name = some symbol)
    (hkind : symbol.kind = .constant) (hnone : symbol.value = none) (hnew : symbol.name ∉ folding)
    (h : Yields (foldConstant resolve symbol) table value table') :
    Sound range table' ∧ Folds table table' ∧ Keeps folding table table' ∧
      table'.value? symbol.name = some value := by
  rw [foldConstant] at h
  split at h
  · exact absurd h yields_throw
  next definition hdef =>
  simp only [yields_bind, yields_get, yields_modify, yields_pure] at h
  obtain ⟨_, _, ⟨rfl, rfl⟩, value, table₁, hfold, -, _, rfl, rfl, rfl⟩ := h
  obtain ⟨hsound₁, ⟨hfolds, hkeeps⟩, heval⟩ := definition.fold_sound value? (Sound range)
    (fun t t' => Folds t t' ∧ Keeps (folding ++ [symbol.name]) t t')
    (fun t => ⟨Folds.refl t, fun _ _ => rfl⟩)
    (fun h h' => ⟨h.1.trans h'.1, fun n hn => (h'.2 n hn).trans (h.2 n hn)⟩)
    (fun h => h.1.toExtends.le)
    (fun hs hv => hsound.width_eq ▸ hs.fits_value? hv) (fun _ hp => by cases hp)
    (fun hs hy => by
      obtain ⟨hs', hf, hk, hv⟩ := hresolve hs (yields_resolveWith hs.bindings_eq hy)
      exact ⟨hs', ⟨hf, hk⟩, hv⟩)
    hsound hfold
  rw [hsound.width_eq] at heval
  -- the constant itself still has no value
  have hnone₁ : table₁.value? symbol.name = none := by
    rw [hkeeps symbol.name (by simp), value?_of_find? hfind, hnone]
  have hfind₁ := hfolds.find_of_value?_eq_none hfind hnone₁
  have hset : Folds table₁ (table₁.setValue symbol.name value) :=
    Folds.setValue hfind₁ hkind hnone
  have hholds : range.Holds .constant value := range.constant (Expr.fits_eval heval)
  refine ⟨?_, hfolds.trans hset, ?_, ?_⟩
  · refine hsound₁.setValue hfind₁ hnone (hkind ▸ hholds) fun definition' _ hdef' => ?_
    rw [hdef] at hdef'
    obtain rfl := Option.some.inj hdef'
    exact heval
  · intro other hother
    have hne : other ≠ symbol.name := fun heq => hnew (heq ▸ hother)
    rw [value?, find?_setValue, if_neg hne]
    exact hkeeps other (by simp [hother])
  · rw [value?, find?_setValue, if_pos rfl, hfind₁]
    rfl

/-- The value of a name is the one that the table has for it afterwards. -/
theorem valueWithin_sound (rounds : Nat) {folding : List String} (hsound : Sound range table)
    (h : Yields (valueWithin rounds folding name location) table value table') :
    Sound range table' ∧ Folds table table' ∧ Keeps folding table table' ∧
      table'.value? name = some value := by
  -- by the rounds, each of which folds one constant more
  induction rounds generalizing folding name location table value table' with
  | zero =>
      rcases yields_valueOrFold h with ⟨hvalue, rfl⟩ | ⟨symbol, -, -, -, h⟩
      · exact ⟨hsound, Folds.refl _, fun _ _ => rfl, hvalue⟩
      · exact absurd h yields_throw
  | succ rounds ih =>
      rcases yields_valueOrFold h with ⟨hvalue, rfl⟩ | ⟨symbol, hfind, hkind, hnone, hfold⟩
      · exact ⟨hsound, Folds.refl _, fun _ _ => rfl, hvalue⟩
      · split at hfold
        · exact absurd hfold yields_throw
        · next hnew =>
          obtain rfl := name_of_find? hfind
          exact foldConstant_sound (fun hs hy => ih hs hy) hsound hfind hkind hnone
            (by simpa using hnew) hfold

/-- A name that is looked up has the value that comes back from then on. -/
theorem valueOf_sound (hsound : Sound range table)
    (h : Yields (valueOf name location) table value table') :
    Sound range table' ∧ Folds table table' ∧ table'.value? name = some value := by
  simp only [valueOf, yields_bind, yields_get] at h
  obtain ⟨_, _, ⟨rfl, rfl⟩, h⟩ := h
  obtain ⟨hsound', hfolds, -, hvalue⟩ := valueWithin_sound _ hsound h
  exact ⟨hsound', hfolds, hvalue⟩

/-- The value of an expression is the plain one in the table that its evaluation leaves. -/
theorem evaluate_sound {e : Expr} {here : Option Int}
    (hhere : ∀ position, here = some position → width.Fits position) (hsound : Sound range table)
    (h : Yields (evaluate e here) table value table') :
    Sound range table' ∧ Folds table table' ∧ e.eval width table'.value? here = some value := by
  simp only [evaluate, yields_bind, yields_get] at h
  obtain ⟨_, _, ⟨rfl, rfl⟩, h⟩ := h
  have hfold := e.fold_sound value? (Sound range) Folds Folds.refl Folds.trans
    (fun h => h.toExtends.le) (fun hs hv => hsound.width_eq ▸ hs.fits_value? hv)
    (fun position hp => hsound.width_eq ▸ hhere position hp)
    (fun hs hy => valueOf_sound hs (yields_resolveWith hs.bindings_eq hy)) hsound h
  rw [hsound.width_eq] at hfold
  exact hfold

/-- A name with a known value is not folded again. -/
theorem yields_valueOf (h : table.value? name = some value) :
    Yields (valueOf name location) table value table := by
  obtain ⟨symbol, hfind, hvalue⟩ := value?_eq_some.mp h
  simp only [valueOf, yields_bind, yields_get]
  refine ⟨table, table, ⟨rfl, rfl⟩, ?_⟩
  rw [valueWithin, valueOrFold, yields_bind]
  refine ⟨table, table, yields_get.mpr ⟨rfl, rfl⟩, ?_⟩
  rw [hfind]
  simp [hvalue]

/-! ## All constants -/

/-- Once every constant has been looked up, every one of them has a value. -/
theorem resolveEach_sound (symbols : List Symbol) {u : Unit} (hsound : Sound range table)
    (h : Yields (resolveEach symbols) table u table') :
    Sound range table' ∧ Folds table table' ∧
      ∀ symbol ∈ symbols, symbol.kind = .constant →
        ∃ value, table'.value? symbol.name = some value := by
  induction symbols generalizing table with
  | nil =>
      obtain ⟨-, rfl⟩ := yields_pure.mp h
      exact ⟨hsound, Folds.refl _, by simp⟩
  | cons first rest ih =>
      simp only [resolveEach] at h
      split at h
      · simp only [yields_bind] at h
        obtain ⟨value, table₁, hvalue, h⟩ := h
        obtain ⟨hsound₁, hfolds₁, hvalue₁⟩ := valueOf_sound hsound hvalue
        obtain ⟨hsound', hfolds, hrest⟩ := ih hsound₁ h
        refine ⟨hsound', hfolds₁.trans hfolds, ?_⟩
        intro symbol hmem hkind
        -- a value that has been folded is kept while the others are folded
        rcases List.mem_cons.mp hmem with rfl | hmem
        · exact ⟨value, hfolds.toExtends.le _ _ hvalue₁⟩
        · exact hrest symbol hmem hkind
      · next hkind =>
        obtain ⟨hsound', hfolds, hrest⟩ := ih hsound h
        refine ⟨hsound', hfolds, ?_⟩
        intro symbol hmem hkind'
        rcases List.mem_cons.mp hmem with rfl | hmem
        · exact absurd hkind' hkind
        · exact hrest symbol hmem hkind'

/-- After all constants have been folded, each of them has the value of its definition. -/
theorem resolveAll_sound {u : Unit} (hsound : Sound range table)
    (h : Yields resolveAll table u table') :
    Sound range table' ∧ Folds table table' ∧
      ∀ symbol ∈ table.symbols, symbol.kind = .constant →
        ∃ value, table'.value? symbol.name = some value := by
  simp only [resolveAll, yields_bind, yields_get] at h
  obtain ⟨_, _, ⟨rfl, rfl⟩, h⟩ := h
  exact resolveEach_sound _ hsound h

/-! ## Stages -/

/-- What a stage that does not use literals does to a table. -/
structure Grows (range : ValueRange width) (table table' : SymbolTable) : Prop where
  sound : Sound range table'
  toExtends : Extends table table'
  pool_eq : table'.pool = table.pool

namespace Grows

/-- A sound table grows into itself. -/
theorem refl (h : Sound range table) : Grows range table table := ⟨h, Extends.refl _, rfl⟩

theorem trans (h : Grows range table table') (h' : Grows range table' table'') :
    Grows range table table'' :=
  ⟨h'.sound, h.toExtends.trans h'.toExtends, h'.pool_eq.trans h.pool_eq⟩

/-- A look-up in a sound table lets it grow. -/
theorem of_folds (hsound : Sound range table') (h : Folds table table') :
    Grows range table table' := ⟨hsound, h.toExtends, h.pool_eq⟩

/-- A definition lets a sound table grow, if its value is one for its kind and a constant comes
without value. -/
theorem define (hsound : Sound range table) (h : table.define symbol = .ok table')
    (hholds : ∀ value, symbol.value = some value → range.Holds symbol.kind value)
    (hconstant : symbol.kind = .constant →
      symbol.value = none ∧ ∃ definition, symbol.definition = some definition) :
    Grows range table table' :=
  ⟨hsound.define h hholds hconstant, Extends.define h, by rw [(define_eq_ok.mp h).2]⟩

end Grows

/-- A name is a constant with a definition. -/
def HasConstant (table : SymbolTable) (name : String) (definition : Expr) : Prop :=
  ∃ symbol, table.find? name = some symbol ∧ symbol.kind = .constant ∧
    symbol.definition = some definition

/-- A constant that is defined is there with its definition. -/
theorem defineConstant_sound {definition : Expr} (hsound : Sound range table)
    (h : table.defineConstant name definition location = .ok table') :
    Grows range table table' ∧ table'.HasConstant name definition := by
  refine ⟨Grows.define hsound h (fun _ hv => by cases hv) fun _ => ⟨rfl, definition, rfl⟩, ?_⟩
  exact ⟨_, by rw [find?_define h, if_pos rfl], rfl, rfl⟩

/-- A constant stays one, with its definition. -/
theorem HasConstant.mono {definition : Expr} (h : table.HasConstant name definition)
    (hextends : Extends table table') : table'.HasConstant name definition := by
  obtain ⟨symbol, hfind, hkind, hdef⟩ := h
  obtain ⟨symbol', hfind', hkind', hdef', -⟩ := hextends.find hfind
  exact ⟨symbol', hfind', hkind'.trans hkind, hdef'.trans hdef⟩

/-- A constant that has a value has that of its definition. -/
theorem HasConstant.eval_eq {definition : Expr} (h : table.HasConstant name definition)
    (hsound : Sound range table) (hvalue : table.value? name = some value) :
    definition.eval width table.value? none = some value := by
  obtain ⟨symbol, hfind, hkind, hdef⟩ := h
  obtain ⟨definition', hdef', heval⟩ := hsound.folded hfind hkind
  rw [hdef] at hdef'
  obtain rfl := Option.some.inj hdef'
  exact heval value (by rw [← value?_of_find? hfind, hvalue])

end Subleq.SymbolTable
