import Subleq.Proofs.Resolver

/-!
# The order of questions does not matter

A table keeps the constants that it has folded, so what it answers might depend on what it was asked
before, and on the definitions that it had then.  It does not: `SymbolTable.answer` is what a table
answers if it keeps nothing, and a table that has folded some constants answers the same
(`SymbolTable.Backed`), faults included.

A value that is kept was found in some other context, with other constants on the stack.  It is the
value in every context in which it is asked for, since no constant on the stack can be reached from
a name that has a value: the references from such a name lead back nowhere
(`SymbolTable.acc_of_answer`).

`SymbolTable.after` is the table that a history of definitions and questions leads to, refused ones
included, and `SymbolTable.after_answers` puts everything together.
-/

namespace Subleq

open Folding Relation

/-! ## Expressions over names without a state -/

namespace Expr

variable {arith : Arithmetic} {here : Option Int} {value : Int}

/-- The value of an expression whose names are looked up without a state. -/
def valueWith (arith : Arithmetic) (resolve : String → Option Location → Except Fault Int)
    (here : Option Int) (e : Expr) : Except Fault Int :=
  let lookup (name : String) (location : Option Location) : Folding Unit Int :=
    liftM (resolve name location)
  ((e.fold arith lookup here).run ()).1

/-- The value of an expression, as a fold in which names have results. -/
theorem valueWith_eq_ok {resolve : String → Option Location → Except Fault Int} {e : Expr} :
    e.valueWith arith resolve here = .ok value ↔
      Yields (e.fold arith (fun name location => liftM (resolve name location)) here) () value () :=
  ⟨fun h => Prod.ext h rfl, fun h => congrArg Prod.fst h⟩

/-- More values of names make no difference to an expression that has a value. -/
theorem yields_fold_mono {σ : Type} {resolve resolve' : String → Option Location → Folding σ Int}
    (e : Expr) {s s' : σ}
    (hresolve : ∀ name ∈ e.mentions, ∀ location s value s',
      Yields (resolve name location) s value s' → Yields (resolve' name location) s value s')
    (h : Yields (e.fold arith resolve here) s value s') :
    Yields (e.fold arith resolve' here) s value s' := by
  induction e generalizing s s' value with
  | num _ _ => exact h
  | sym name location => exact hresolve name (List.mem_singleton_self name) location s value s' h
  | here _ => exact h
  | un op operand location ih =>
      rw [fold, yields_bind] at h ⊢
      obtain ⟨x, s₁, hx, hop⟩ := h
      exact ⟨x, s₁, ih hresolve hx, hop⟩
  | bin op left right ihl ihr =>
      simp only [fold, yields_bind] at h ⊢
      obtain ⟨x, s₁, hx, y, s₂, hy, hop⟩ := h
      exact ⟨x, s₁, ihl (fun name hmem => hresolve name (List.mem_append_left _ hmem)) hx, y, s₂,
        ihr (fun name hmem => hresolve name (List.mem_append_right _ hmem)) hy, hop⟩

/-- All names of an expression that has a value have one. -/
theorem exists_yields_of_fold {σ : Type} {resolve : String → Option Location → Folding σ Int}
    (e : Expr) {s s' : σ} (h : Yields (e.fold arith resolve here) s value s') :
    ∀ name ∈ e.mentions, ∃ location s₁ x s₂, Yields (resolve name location) s₁ x s₂ := by
  induction e generalizing s s' value with
  | num _ _ | here _ => simp [mentions]
  | sym name location =>
      intro other hmem
      obtain rfl := List.mem_singleton.mp hmem
      exact ⟨location, s, value, s', h⟩
  | un op operand location ih =>
      rw [fold, yields_bind] at h
      obtain ⟨x, s₁, hx, -⟩ := h
      exact ih hx
  | bin op left right ihl ihr =>
      simp only [fold, yields_bind] at h
      obtain ⟨x, s₁, hx, y, s₂, hy, -⟩ := h
      intro name hmem
      rcases List.mem_append.mp hmem with hmem | hmem
      · exact ihl hx name hmem
      · exact ihr hy name hmem

/-- More results make no difference to a value that there is. -/
theorem valueWith_mono {resolve resolve' : String → Option Location → Except Fault Int} (e : Expr)
    (hresolve : ∀ name ∈ e.mentions, ∀ location value, resolve name location = .ok value →
      resolve' name location = .ok value)
    (h : e.valueWith arith resolve here = .ok value) :
    e.valueWith arith resolve' here = .ok value := by
  rw [valueWith_eq_ok] at h ⊢
  refine e.yields_fold_mono (fun name hmem location s value s' hy => ?_) h
  obtain ⟨hvalue, rfl⟩ := yields_liftM.mp hy
  exact yields_liftM.mpr ⟨hresolve name hmem location value hvalue, rfl⟩

/-- Every name in an expression that has a value has a result. -/
theorem exists_of_valueWith {resolve : String → Option Location → Except Fault Int} (e : Expr)
    (h : e.valueWith arith resolve here = .ok value) {name : String} (hmem : name ∈ e.mentions) :
    ∃ location x, resolve name location = .ok x := by
  obtain ⟨location, _, x, _, hy⟩ := e.exists_yields_of_fold (valueWith_eq_ok.mp h) name hmem
  exact ⟨location, x, (yields_liftM.mp hy).1⟩

end Expr

/-! ## Tables without folded constants -/

/-- A symbol as it was entered. -/
def Symbol.unfolded (symbol : Symbol) : Symbol :=
  if symbol.kind = .constant then { symbol with value := none } else symbol

namespace Symbol

@[simp]
theorem name_unfolded (symbol : Symbol) : symbol.unfolded.name = symbol.name := by
  rw [unfolded]
  split <;> rfl

@[simp]
theorem kind_unfolded (symbol : Symbol) : symbol.unfolded.kind = symbol.kind := by
  rw [unfolded]
  split <;> rfl

@[simp]
theorem definition_unfolded (symbol : Symbol) :
    symbol.unfolded.definition = symbol.definition := by
  rw [unfolded]
  split <;> rfl

@[simp]
theorem location_unfolded (symbol : Symbol) : symbol.unfolded.location = symbol.location := by
  rw [unfolded]
  split <;> rfl

theorem value_unfolded (symbol : Symbol) :
    symbol.unfolded.value = if symbol.kind = .constant then none else symbol.value := by
  rw [unfolded]
  split <;> rfl

@[simp]
theorem unfolded_unfolded (symbol : Symbol) : symbol.unfolded.unfolded = symbol.unfolded := by
  by_cases hkind : symbol.kind = .constant
  · simp [unfolded, hkind]
  · simp [unfolded, hkind]

end Symbol

namespace SymbolTable

variable {table table' bare : SymbolTable} {name : String} {symbol : Symbol} {value : Int}
  {location : Option Location} {rounds : Nat} {folding : List String}

/-- A table as it was before any constant was folded. -/
def unfolded (table : SymbolTable) : SymbolTable :=
  { table with symbols := table.symbols.map Symbol.unfolded }

/-- A symbol is found without its value, if it is a constant. -/
theorem find?_unfolded (table : SymbolTable) (name : String) :
    table.unfolded.find? name = (table.find? name).map Symbol.unfolded := by
  have hcomp : ((·.name == name) ∘ Symbol.unfolded) = fun symbol : Symbol => symbol.name == name := by
    funext symbol
    rw [Function.comp_apply, Symbol.name_unfolded]
  rw [find?, unfolded, List.find?_map, hcomp]
  rfl

theorem unfolded_unfolded (table : SymbolTable) : table.unfolded.unfolded = table.unfolded := by
  simp [unfolded]

/-- An undefined name is reported alike. -/
theorem undefined_unfolded (table : SymbolTable) (name : String) (location : Option Location) :
    table.unfolded.undefined name location = table.undefined name location := by
  have hnames : table.unfolded.userNames = table.userNames := by
    simp [userNames, unfolded, List.filter_map, Function.comp_def]
  rw [undefined, undefined, hnames]

theorem circular_unfolded (folding : List String) (symbol : Symbol) :
    circular folding symbol.unfolded = circular folding symbol := by
  rw [circular, circular, Symbol.name_unfolded, Symbol.location_unfolded]

/-- A constant has no value in a table as it was before. -/
theorem value_of_find?_unfolded (h : table.unfolded.find? name = some symbol)
    (hkind : symbol.kind = .constant) : symbol.value = none := by
  rw [find?_unfolded] at h
  obtain ⟨other, -, rfl⟩ := Option.map_eq_some_iff.mp h
  rw [Symbol.kind_unfolded] at hkind
  rw [Symbol.value_unfolded, if_pos hkind]

/-- A table as it was before does not tell which values have been kept since. -/
theorem unfolded_setValue (hnodup : (table.symbols.map Symbol.name).Nodup)
    (hfind : table.find? name = some symbol) (hkind : symbol.kind = .constant) (value : Int) :
    (table.setValue name value).unfolded = table.unfolded := by
  rw [unfolded, unfolded, SymbolTable.setValue, List.map_map]
  congr 1
  refine List.map_congr_left fun other hother => ?_
  rw [Function.comp_apply]
  split
  · next heq =>
    -- there is one symbol of that name, and it is a constant
    have hother' := find?_of_mem hnodup hother
    rw [eq_of_beq heq, hfind] at hother'
    obtain rfl := Option.some.inj hother'
    simp [Symbol.unfolded, hkind]
  · rfl

/-! ## Answers -/

/-- The value of a name that has one; for a constant, what `fold` gives. -/
def answerOr (table : SymbolTable) (fold : Symbol → Except Fault Int) (name : String)
    (location : Option Location) : Except Fault Int :=
  match table.find? name with
  | none => .error (table.undefined name location)
  | some symbol =>
      match symbol.value with
      | some value => .ok value
      | none =>
          if symbol.kind ≠ .constant then .error (unplaced name location) else fold symbol

/-- The value of a name, where `folding` are the constants being folded.  Nothing is kept, so the
value depends on definitions only. -/
def answer (table : SymbolTable) : (rounds : Nat) → (folding : List String) → String →
    Option Location → Except Fault Int
  | 0, folding => table.answerOr fun symbol => .error (circular folding symbol)
  | rounds + 1, folding => table.answerOr fun symbol =>
      if folding.contains symbol.name then .error (circular folding symbol)
      else
        match symbol.definition with
        | none => .error (.noDefinition symbol.name)
        | some definition =>
            definition.valueWith table.arith (table.answer rounds (folding ++ [symbol.name])) none

/-- A value that is stored is the answer. -/
theorem answer_of_value (hfind : table.find? name = some symbol)
    (hvalue : symbol.value = some value) : table.answer rounds folding name location = .ok value := by
  cases rounds with
  | zero => rw [answer, answerOr, hfind]; simp only [hvalue]
  | succ rounds => rw [answer, answerOr, hfind]; simp only [hvalue]

/-- Otherwise the answer is the value of the definition, with this name among those being folded. -/
theorem answer_of_constant {definition : Expr} (hfind : table.find? name = some symbol)
    (hkind : symbol.kind = .constant) (hvalue : symbol.value = none)
    (hdef : symbol.definition = some definition) (hnew : name ∉ folding) :
    table.answer (rounds + 1) folding name location =
      definition.valueWith table.arith (table.answer rounds (folding ++ [name])) none := by
  obtain rfl := name_of_find? hfind
  rw [answer, answerOr, hfind]
  simp [hkind, hvalue, hdef, hnew]

/-- An answer is a stored value or a folded one. -/
theorem answerOr_eq_ok {fold : Symbol → Except Fault Int}
    (h : table.answerOr fold name location = .ok value) :
    ∃ symbol, table.find? name = some symbol ∧ (symbol.value = some value ∨
      symbol.value = none ∧ symbol.kind = .constant ∧ fold symbol = .ok value) := by
  rw [answerOr] at h
  split at h
  · cases h
  · next symbol hfind =>
    refine ⟨symbol, hfind, ?_⟩
    split at h
    · next known hknown =>
      obtain rfl := Except.ok.inj h
      exact .inl hknown
    · next hnone =>
      split at h
      · cases h
      · next hkind => exact .inr ⟨hnone, not_not.mp hkind, h⟩

/-- A name has a value if it has been given one, or if it is a constant whose definition has one. -/
theorem answer_eq_ok (h : table.answer rounds folding name location = .ok value) :
    ∃ symbol, table.find? name = some symbol ∧ (symbol.value = some value ∨
      symbol.value = none ∧ symbol.kind = .constant ∧ name ∉ folding ∧
        ∃ definition depth, symbol.definition = some definition ∧ rounds = depth + 1 ∧
          definition.valueWith table.arith (table.answer depth (folding ++ [name])) none =
            .ok value) := by
  -- without a round left there has to be a stored value
  cases rounds with
  | zero =>
      obtain ⟨symbol, hfind, hvalue | ⟨-, -, hfold⟩⟩ := answerOr_eq_ok h
      · exact ⟨symbol, hfind, .inl hvalue⟩
      · cases hfold
  | succ rounds =>
      obtain ⟨symbol, hfind, hvalue | ⟨hnone, hkind, hfold⟩⟩ := answerOr_eq_ok h
      · exact ⟨symbol, hfind, .inl hvalue⟩
      · refine ⟨symbol, hfind, .inr ⟨hnone, hkind, ?_⟩⟩
        obtain rfl := name_of_find? hfind
        split at hfold
        · cases hfold
        · next hnew =>
          cases hdef : symbol.definition with
          | none =>
              rw [hdef] at hfold
              cases hfold
          | some definition =>
              rw [hdef] at hfold
              exact ⟨by simpa using hnew, definition, rounds, rfl, rfl, hfold⟩

/-! ## References -/

/-- A constant mentions a name in its definition. -/
def References (table : SymbolTable) (name other : String) : Prop :=
  ∃ definition, table.HasConstant name definition ∧ other ∈ definition.mentions

/-- Definitions are not forgotten. -/
theorem hasConstant_unfolded {definition : Expr} :
    table.unfolded.HasConstant name definition ↔ table.HasConstant name definition := by
  rw [HasConstant, HasConstant, find?_unfolded]
  constructor
  · rintro ⟨_, hfind, hkind, hdef⟩
    obtain ⟨symbol, hsymbol, rfl⟩ := Option.map_eq_some_iff.mp hfind
    rw [Symbol.kind_unfolded] at hkind
    rw [Symbol.definition_unfolded] at hdef
    exact ⟨symbol, hsymbol, hkind, hdef⟩
  · rintro ⟨symbol, hsymbol, hkind, hdef⟩
    refine ⟨symbol.unfolded, by rw [hsymbol, Option.map_some], ?_, ?_⟩
    · rw [Symbol.kind_unfolded, hkind]
    · rw [Symbol.definition_unfolded, hdef]

/-- So the references between constants are the same. -/
theorem references_unfolded : table.unfolded.References = table.References := by
  funext name other
  simp only [References, hasConstant_unfolded]

/-- What a constant references is mentioned in the one definition that it has. -/
theorem mem_mentions_of_references {definition : Expr} {other : String}
    (hfind : table.find? name = some symbol) (hdef : symbol.definition = some definition)
    (h : table.References name other) : other ∈ definition.mentions := by
  obtain ⟨definition', ⟨symbol', hfind', -, hdef'⟩, hmem⟩ := h
  obtain rfl := Option.some.inj (hfind.symm.trans hfind')
  obtain rfl := Option.some.inj (hdef.symm.trans hdef')
  exact hmem

theorem kind_of_references {other : String} (hfind : table.find? name = some symbol)
    (h : table.References name other) : symbol.kind = .constant := by
  obtain ⟨_, ⟨symbol', hfind', hkind, -⟩, -⟩ := h
  obtain rfl := Option.some.inj (hfind.symm.trans hfind')
  exact hkind

theorem mem_names_of_references {other : String} (h : table.References name other) :
    name ∈ table.symbols.map Symbol.name := by
  obtain ⟨_, ⟨symbol, hfind, -, -⟩, -⟩ := h
  exact mem_names_of_find? hfind

section Unfolded

variable (hbare : bare.unfolded = bare)

include hbare

/-- A symbol that has a value from the beginning is no constant. -/
theorem kind_ne_constant (hfind : bare.find? name = some symbol)
    (hvalue : symbol.value = some value) : symbol.kind ≠ .constant := by
  intro hkind
  rw [← hbare] at hfind
  rw [value_of_find?_unfolded hfind hkind] at hvalue
  cases hvalue

/-- The references from a name that has a value come to an end. -/
theorem acc_of_answer (h : bare.answer rounds folding name location = .ok value) :
    Acc (Function.swap bare.References) name := by
  induction rounds using Nat.strong_induction_on generalizing folding name location value with
  | _ rounds ih =>
  obtain ⟨symbol, hfind, hvalue | ⟨-, -, -, definition, depth, hdef, rfl, hwith⟩⟩ :=
    answer_eq_ok h
  · refine ⟨name, fun other href => ?_⟩
    exact absurd (kind_of_references hfind href) (kind_ne_constant hbare hfind hvalue)
  · refine ⟨name, fun other href => ?_⟩
    have hmem := mem_mentions_of_references hfind hdef href
    obtain ⟨location, x, hx⟩ := definition.exists_of_valueWith hwith hmem
    exact ih depth (Nat.lt_succ_self depth) hx

/-- No name on a chain of references from a name that has a value depends on itself. -/
theorem not_transGen_of_answer (h : bare.answer rounds folding name location = .ok value)
    {other : String} (hreach : ReflTransGen bare.References name other) :
    ¬ TransGen bare.References other other := by
  have hacc : Acc (Function.swap bare.References) other := by
    induction hreach with
    | refl => exact acc_of_answer hbare h
    | tail _ href ih => exact ih.inv href
  intro hcycle
  have hirrefl : ∀ x, Acc (TransGen (Function.swap bare.References)) x →
      ¬ TransGen (Function.swap bare.References) x x := by
    intro x hx
    induction hx with
    | intro x _ ih => exact fun hloop => ih x hloop hloop
  exact hirrefl other hacc.transGen (transGen_swap.mpr hcycle)

/-- A value is the value in every context: with any constants on the stack from which the name can be
asked for, that is, with none that it leads to. -/
theorem answer_in_context (h : bare.answer rounds folding name location = .ok value)
    {rounds' : Nat} {folding' : List String} (location' : Option Location)
    (hstack : Resolver.Stack (bare.symbols.map Symbol.name) rounds' folding')
    (hfree : ∀ other ∈ folding', ¬ ReflTransGen bare.References name other) :
    bare.answer rounds' folding' name location' = .ok value := by
  induction rounds using Nat.strong_induction_on
    generalizing folding name location value rounds' folding' location' with
  | _ rounds ih =>
  obtain ⟨symbol, hfind, hvalue | ⟨hnone, hkind, -, definition, depth, hdef, rfl, hwith⟩⟩ :=
    answer_eq_ok h
  · exact answer_of_value hfind hvalue
  · have hnew : name ∉ folding' := fun hmem => hfree name hmem .refl
    obtain ⟨depth', rfl⟩ := hstack.exists_rounds
    rw [answer_of_constant hfind hkind hnone hdef hnew]
    refine definition.valueWith_mono (fun other hmem location x hx => ?_) hwith
    have href : bare.References name other := ⟨definition, ⟨symbol, hfind, hkind, hdef⟩, hmem⟩
    refine ih depth (Nat.lt_succ_self depth) hx location
      (hstack.push hnew (mem_names_of_find? hfind)) fun constant hconstant hreach => ?_
    rcases List.mem_append.mp hconstant with hconstant | hconstant
    · exact hfree constant hconstant (hreach.head href)
    · -- the name does not lead back to itself
      obtain rfl := List.mem_singleton.mp hconstant
      exact not_transGen_of_answer hbare h .refl (TransGen.head'_iff.mpr ⟨other, href, hreach⟩)

end Unfolded

/-- A value stays the same if there are more definitions. -/
theorem answer_mono (hbare : table'.unfolded = table') (hextends : Extends table table')
    (h : table.answer rounds folding name location = .ok value) :
    table'.answer rounds folding name location = .ok value := by
  -- by strong induction on the rounds, as an answer refers to answers in fewer rounds
  induction rounds using Nat.strong_induction_on generalizing folding name location value with
  | _ rounds ih =>
  obtain ⟨symbol, hfind, hvalue | ⟨hnone, hkind, hnew, definition, depth, hdef, rfl, hwith⟩⟩ :=
    answer_eq_ok h
  · obtain ⟨symbol', hfind', -, -, hkeeps⟩ := hextends.find hfind
    exact answer_of_value hfind' (hkeeps value hvalue)
  · obtain ⟨symbol', hfind', hkind', hdef', -⟩ := hextends.find hfind
    -- the larger table has not stored the value, so it folds the constant again
    have hnone' : symbol'.value = none := by
      rw [← hbare] at hfind'
      exact value_of_find?_unfolded hfind' (hkind'.trans hkind)
    rw [answer_of_constant hfind' (hkind'.trans hkind) hnone' (hdef'.trans hdef) hnew,
      hextends.arith_eq]
    exact definition.valueWith_mono
      (fun other _ location x hx => ih depth (Nat.lt_succ_self depth) hx) hwith

/-! ## Tables that keep values -/

/-- A table whose folded constants have the values that are the answers for them. -/
structure Backed (bare table : SymbolTable) : Prop where
  unfolded_eq : table.unfolded = bare
  bindings_eq : table.bindings = []
  nodup : (table.symbols.map Symbol.name).Nodup
  answered : ∀ {name symbol value}, table.find? name = some symbol → symbol.kind = .constant →
    symbol.value = some value →
    ∃ rounds folding location, bare.answer rounds folding name location = .ok value

namespace Backed

/-- A backed table has the same arithmetic. -/
theorem arith_eq (h : Backed bare table) : bare.arith = table.arith := by rw [← h.unfolded_eq]; rfl

/-- The table behind it has no values of constants. -/
theorem bare_eq (h : Backed bare table) : bare.unfolded = bare := by
  rw [← h.unfolded_eq, unfolded_unfolded]

/-- It has as many symbols. -/
theorem length_eq (h : Backed bare table) : table.symbols.length = bare.symbols.length := by
  rw [← h.unfolded_eq, unfolded, List.length_map]

/-- It has the same symbols, up to the values of constants. -/
theorem find?_eq (h : Backed bare table) (name : String) :
    bare.find? name = (table.find? name).map Symbol.unfolded := by
  rw [← h.unfolded_eq, find?_unfolded]

/-- The value of a constant that is an answer can be kept. -/
theorem setValue (h : Backed bare table) (hfind : table.find? name = some symbol)
    (hkind : symbol.kind = .constant)
    (hanswer : bare.answer rounds folding name location = .ok value) :
    Backed bare (table.setValue name value) := by
  refine ⟨(unfolded_setValue h.nodup hfind hkind value).trans h.unfolded_eq, h.bindings_eq, ?_, ?_⟩
  · rw [names_setValue]
    exact h.nodup
  · intro other symbol' value' hfind' hkind' hvalue'
    rw [find?_setValue] at hfind'
    split at hfind'
    · next heq =>
      subst heq
      rw [hfind, Option.map_some] at hfind'
      obtain rfl := Option.some.inj hfind'
      obtain rfl := Option.some.inj hvalue'
      exact ⟨rounds, folding, location, hanswer⟩
    · exact h.answered hfind' hkind' hvalue'

end Backed

/-- A name is asked for while the constants that lead to it are being folded. -/
structure Context (bare : SymbolTable) (rounds : Nat) (folding : List String) (name : String) :
    Prop extends Resolver.Stack (bare.symbols.map Symbol.name) rounds folding where
  leads : ∀ other ∈ folding, TransGen bare.References other name

namespace Context

/-- Nothing is being folded when a table is asked for a value. -/
theorem nil (bare : SymbolTable) (name : String) :
    Context bare (bare.symbols.length + 1) [] name := by
  have hstack := Resolver.Stack.nil (bare.symbols.map Symbol.name)
  rw [List.length_map] at hstack
  exact ⟨hstack, fun _ hmem => by cases hmem⟩

/-- Folding goes on to a name that is referred to, with one round less. -/
theorem push (h : Context bare (rounds + 1) folding name) (hnew : name ∉ folding) {other : String}
    (href : bare.References name other) : Context bare rounds (folding ++ [name]) other := by
  refine ⟨h.toStack.push hnew (mem_names_of_references href), fun constant hconstant => ?_⟩
  rcases List.mem_append.mp hconstant with hconstant | hconstant
  · exact (h.leads constant hconstant).tail href
  · obtain rfl := List.mem_singleton.mp hconstant
    exact .single href

/-- A value that is known is the answer, whatever is being folded. -/
theorem answer_eq (h : Context bare rounds folding name) (hbare : bare.unfolded = bare)
    {rounds' : Nat} {folding' : List String} {location' : Option Location}
    (hanswer : bare.answer rounds' folding' name location' = .ok value)
    (location : Option Location) : bare.answer rounds folding name location = .ok value := by
  refine answer_in_context hbare hanswer location h.toStack fun other hother hreach => ?_
  exact not_transGen_of_answer hbare hanswer .refl
    (TransGen.trans_right hreach (h.leads other hother))

/-- A value that is kept is the answer. -/
theorem answer_of_kept (h : Context bare rounds folding name) (hbacked : Backed bare table)
    (hfind : table.find? name = some symbol) (hkind : symbol.kind = .constant)
    (hvalue : symbol.value = some value) (location : Option Location) :
    bare.answer rounds folding name location = .ok value := by
  obtain ⟨_, _, _, hanswer⟩ := hbacked.answered hfind hkind hvalue
  exact h.answer_eq hbacked.bare_eq hanswer location

end Context

/-- Without bindings a name is looked up in the table. -/
theorem run_resolveWith {resolve : String → Option Location → Folding SymbolTable Int}
    (hbindings : table.bindings = []) :
    (resolveWith resolve name location).run table = (resolve name location).run table := by
  show ExceptT.run (match OrderedMap.get? table.bindings name with
    | some bound => pure bound
    | none => resolve name location) table = _
  rw [hbindings]
  rfl

/-- A look-up answers what the table behind it answers, whether the value is stored or folded. -/
theorem run_valueOrFold {fold : Symbol → Folding SymbolTable Int} {fold' : Symbol → Except Fault Int}
    (hbacked : Backed bare table)
    (hkept : ∀ symbol value, table.find? name = some symbol → symbol.kind = .constant →
      symbol.value = some value → bare.answerOr fold' name location = .ok value)
    (hfold : ∀ symbol, table.find? name = some symbol → symbol.kind = .constant →
      symbol.value = none →
      ∃ last, (fold symbol).run table = (fold' symbol.unfolded, last) ∧ Backed bare last) :
    ∃ last, (valueOrFold fold name location).run table =
      (bare.answerOr fold' name location, last) ∧ Backed bare last := by
  show ∃ last, ExceptT.run (match table.find? name with
    | none => throw (table.undefined name location)
    | some symbol =>
        match symbol.value with
        | some value => pure value
        | none => if symbol.kind ≠ .constant then throw (unplaced name location) else fold symbol)
      table = _ ∧ _
  -- the three things that a name may be found to be
  cases hfind : table.find? name with
  | none =>
      refine ⟨table, ?_, hbacked⟩
      rw [answerOr, hbacked.find?_eq, hfind, ← hbacked.unfolded_eq]
      simp only [Option.map_none, undefined_unfolded]
      rfl
  | some symbol =>
      have hsymbol : bare.find? name = some symbol.unfolded := by
        rw [hbacked.find?_eq, hfind, Option.map_some]
      by_cases hkind : symbol.kind = .constant
      · cases hvalue : symbol.value with
        | some value =>
            refine ⟨table, ?_, hbacked⟩
            rw [hkept symbol value hfind hkind hvalue]
            simp only [hvalue]
            rfl
        | none =>
            obtain ⟨last, hrun, hlast⟩ := hfold symbol hfind hkind hvalue
            refine ⟨last, ?_, hlast⟩
            rw [answerOr, hsymbol]
            simp only [Symbol.value_unfolded, Symbol.kind_unfolded, hvalue, hkind, if_true, ne_eq,
              not_true_eq_false, if_false]
            exact hrun
      · refine ⟨table, ?_, hbacked⟩
        rw [answerOr, hsymbol]
        simp only [Symbol.value_unfolded, Symbol.kind_unfolded, if_neg hkind, if_pos hkind]
        cases symbol.value with
        | some value => rfl
        | none => rfl

/-- An expression whose names get their answers has the value of its answers. -/
theorem run_fold {resolve : String → Option Location → Folding SymbolTable Int}
    {resolve' : String → Option Location → Except Fault Int} (e : Expr) (here : Option Int)
    (hresolve : ∀ name ∈ e.mentions, ∀ location table, Backed bare table →
      ∃ last, (resolve name location).run table = (resolve' name location, last) ∧
        Backed bare last) (hbacked : Backed bare table) :
    ∃ last, (e.fold table.arith (resolveWith resolve) here).run table =
      (e.valueWith bare.arith resolve' here, last) ∧ Backed bare last := by
  -- the look-ups agree where the expression mentions names, which is all that folding does
  have hagrees : ∀ name ∈ e.mentions, ∀ location,
      Agrees (fun table (_ : Unit) => Backed bare table) (resolveWith resolve name location)
        (liftM (resolve' name location)) := by
    intro name hmem location table _ hbacked
    obtain ⟨last, hrun, hlast⟩ := hresolve name hmem location table hbacked
    refine ⟨resolve' name location, last, (), ?_, ?_, hlast⟩
    · rw [run_resolveWith hbacked.bindings_eq, hrun]
    · cases resolve' name location <;> rfl
  obtain ⟨result, last, _, hfold, hvalue, hlast⟩ :=
    e.agrees_fold table.arith here hagrees table () hbacked
  refine ⟨last, ?_, hlast⟩
  rw [hbacked.arith_eq, Expr.valueWith]
  simp only [hvalue]
  exact hfold

/-- A constant whose definition has the value of its answers keeps an answer. -/
theorem run_foldConstant_backed {resolve : String → Option Location → Folding SymbolTable Int}
    {definition : Expr} (hbacked : Backed bare table)
    (hfind : table.find? symbol.name = some symbol) (hkind : symbol.kind = .constant)
    (hdef : symbol.definition = some definition) (hnew : symbol.name ∉ folding)
    (hresolve : ∀ name ∈ definition.mentions, ∀ location table, Backed bare table →
      ∃ last, (resolve name location).run table =
        (bare.answer rounds (folding ++ [symbol.name]) name location, last) ∧
        Backed bare last) :
    ∃ last, (foldConstant resolve symbol).run table =
      (definition.valueWith bare.arith (bare.answer rounds (folding ++ [symbol.name])) none, last) ∧
        Backed bare last := by
  obtain ⟨last, hfold, hlast⟩ := run_fold definition none hresolve hbacked
  refine ⟨_, run_foldConstant hdef hfold, ?_⟩
  cases hresult : definition.valueWith bare.arith (bare.answer rounds (folding ++ [symbol.name]))
    none with
  | error fault => exact hlast
  | ok value =>
      -- the constant is still there
      have hsymbol : bare.find? symbol.name = some symbol.unfolded := by
        rw [hbacked.find?_eq, hfind, Option.map_some]
      have hkind' : symbol.unfolded.kind = .constant := by rw [Symbol.kind_unfolded, hkind]
      obtain ⟨symbol', hfind', heq⟩ :=
        Option.map_eq_some_iff.mp ((hlast.find?_eq symbol.name).symm.trans hsymbol)
      have hanswer : bare.answer (rounds + 1) folding symbol.name none = .ok value := by
        rw [answer_of_constant hsymbol hkind'
          (value_of_find?_unfolded (hbacked.bare_eq ▸ hsymbol) hkind')
          ((Symbol.definition_unfolded symbol).trans hdef) hnew]
        exact hresult
      refine hlast.setValue hfind' ?_ hanswer
      rw [← Symbol.kind_unfolded, heq, hkind']

/-- What a table answers is what it would answer if it kept nothing, and what it keeps is an
answer. -/
theorem run_valueWithin (hcontext : Context bare rounds folding name) (location : Option Location)
    (hbacked : Backed bare table) :
    ∃ last, (valueWithin rounds folding name location).run table =
      (bare.answer rounds folding name location, last) ∧ Backed bare last := by
  -- by induction on the rounds; one is used up for each constant that is being folded
  induction rounds generalizing folding name location table with
  | zero =>
      refine run_valueOrFold hbacked (fun symbol value hfind hkind hvalue => ?_) fun symbol _ _ _ => ?_
      · exact hcontext.answer_of_kept hbacked hfind hkind hvalue location
      · rw [circular_unfolded]
        exact ⟨table, rfl, hbacked⟩
  | succ rounds ih =>
      refine run_valueOrFold hbacked (fun symbol value hfind hkind hvalue => ?_)
        fun symbol hfind hkind hnone => ?_
      · exact hcontext.answer_of_kept hbacked hfind hkind hvalue location
      · obtain rfl := name_of_find? hfind
        rw [circular_unfolded, Symbol.name_unfolded, Symbol.definition_unfolded]
        by_cases hmem : folding.contains symbol.name = true
        -- a circle is found by both
        · rw [if_pos hmem, if_pos hmem]
          exact ⟨table, rfl, hbacked⟩
        · rw [if_neg hmem, if_neg hmem]
          have hnew : symbol.name ∉ folding := by simpa using hmem
          cases hdef : symbol.definition with
          | none =>
              rw [foldConstant, hdef]
              exact ⟨table, rfl, hbacked⟩
          | some definition =>
              have hconstant : bare.HasConstant symbol.name definition := by
                rw [← hbacked.unfolded_eq, hasConstant_unfolded]
                exact ⟨symbol, hfind, hkind, hdef⟩
              exact run_foldConstant_backed hbacked hfind hkind hdef hnew
                fun other hother location table hbacked =>
                  ih (hcontext.push hnew ⟨definition, hconstant, hother⟩) location hbacked

/-- A look-up of a name answers what the table behind it answers, and keeps the table backed. -/
theorem run_valueOf (name : String) (location : Option Location) (table : SymbolTable)
    (hbacked : Backed bare table) :
    ∃ last, (valueOf name location).run table =
      (bare.answer (bare.symbols.length + 1) [] name location, last) ∧ Backed bare last := by
  show ∃ last, (valueWithin (table.symbols.length + 1) [] name location).run table = _ ∧ _
  rw [hbacked.length_eq]
  exact run_valueWithin (.nil bare name) location hbacked

/-! ## Questions -/

/-- What two tables with the same definitions do alike. -/
def Alike {α : Type} (bare : SymbolTable) (m : Folding SymbolTable α) : Prop :=
  Agrees (fun table table' => Backed bare table ∧ Backed bare table') m m

/-- What has the same result from all backed tables is alike in them. -/
theorem alike_of_answer {α : Type} {m : Folding SymbolTable α} {result : Except Fault α}
    (h : ∀ table, Backed bare table →
      ∃ last, m.run table = (result, last) ∧ Backed bare last) : Alike bare m := by
  rintro table table' ⟨hbacked, hbacked'⟩
  obtain ⟨last, hrun, hlast⟩ := h table hbacked
  obtain ⟨last', hrun', hlast'⟩ := h table' hbacked'
  exact ⟨result, last, last', hrun, hrun', hlast, hlast'⟩

/-- Looking every constant up is alike. -/
theorem alike_resolveEach (symbols : List Symbol) : Alike bare (resolveEach symbols) := by
  induction symbols with
  | nil => exact .ret ()
  | cons symbol rest ih =>
      rw [resolveEach]
      by_cases hkind : symbol.kind = .constant
      · rw [if_pos hkind]
        exact Agrees.bind (alike_of_answer (run_valueOf symbol.name symbol.location)) fun _ => ih
      · rw [if_neg hkind]
        exact ih

/-- Which constants are folded in what order does not depend on their values. -/
theorem resolveEach_unfolded (symbols : List Symbol) :
    resolveEach (symbols.map Symbol.unfolded) = resolveEach symbols := by
  induction symbols with
  | nil => rfl
  | cons symbol rest ih =>
      rw [List.map_cons, resolveEach, resolveEach, ih, Symbol.kind_unfolded, Symbol.name_unfolded,
        Symbol.location_unfolded]

/-- Every query is. -/
theorem Query.alike_ask (query : Query) : Alike bare query.ask := by
  cases query with
  | valueOf name location =>
      exact Agrees.bind (alike_of_answer (run_valueOf name location)) fun value => .ret (some value)
  | resolveAll =>
      refine Agrees.bind ?_ fun _ => .ret none
      refine .read fun table table' htables => ?_
      rw [← resolveEach_unfolded table.symbols, ← resolveEach_unfolded table'.symbols]
      -- all constants are gone through in the same order, whatever is known already
      have hsymbols : ∀ table, Backed bare table →
          table.symbols.map Symbol.unfolded = bare.symbols := by
        intro table hbacked
        rw [← hbacked.unfolded_eq]
        rfl
      rw [hsymbols table htables.1, hsymbols table' htables.2]
      exact alike_resolveEach bare.symbols
  | evaluate e here =>
      have hevaluate : ∀ table, Backed bare table →
          ∃ last, (SymbolTable.evaluate e here).run table =
            (e.valueWith bare.arith (bare.answer (bare.symbols.length + 1) []) here, last) ∧
              Backed bare last :=
        fun table => run_fold e here fun name _ => run_valueOf name
      exact Agrees.bind (alike_of_answer hevaluate) fun value => .ret (some value)

/-! ## Histories -/

/-- A symbol that a program or the assembler defines. -/
inductive Definition
  | label (name : String) (address : Int) (location : Option Location)
  | constant (name : String) (definition : Expr) (location : Option Location)
  | temp (name : String) (address : Int)
deriving DecidableEq, Repr

namespace Definition

/-- Enters a definition into a table. -/
def enter (table : SymbolTable) : Definition → Except Fault SymbolTable
  | label name address location => table.defineLabel name address location
  | constant name definition location => table.defineConstant name definition location
  | temp name address => table.defineTemp name address

/-- The symbol that a definition enters, which has a value unless it is a constant. -/
def toSymbol : Definition → Symbol
  | label name address location => ⟨name, .label, some address, none, location⟩
  | constant name definition location => ⟨name, .constant, none, some definition, location⟩
  | temp name address => ⟨name, .temp, some address, none, none⟩

/-- To enter a definition is to define its symbol. -/
theorem enter_eq_define (definition : Definition) (table : SymbolTable) :
    definition.enter table = table.define definition.toSymbol := by
  cases definition with
  | label name address location => rfl
  | constant name definition location => rfl
  | temp name address => rfl

theorem kind_toSymbol (definition : Definition) : definition.toSymbol.kind ≠ .literal := by
  cases definition with
  | label name address location => exact nofun
  | constant name definition location => exact nofun
  | temp name address => exact nofun

/-- A definition enters one symbol, in whatever table. -/
theorem exists_symbol (definition : Definition) :
    ∃ symbol : Symbol, symbol.unfolded = symbol ∧
      ∀ table, definition.enter table = table.define symbol := by
  refine ⟨definition.toSymbol, ?_, definition.enter_eq_define⟩
  cases definition with
  | label name address location => rfl
  | constant name definition location => rfl
  | temp name address => rfl

end Definition

/-- What happens to a table. -/
inductive Action
  | define (definition : Definition)
  | ask (query : Query)
deriving DecidableEq, Repr

namespace Action

def isDefinition : Action → Bool
  | define _ => true
  | ask _ => false

/-- The table after an action.  A definition that is refused changes nothing; a question may change
a table even if it has no answer. -/
def apply (table : SymbolTable) : Action → SymbolTable
  | define definition =>
      match definition.enter table with
      | .ok table' => table'
      | .error _ => table
  | ask query => (query.ask.run table).2

end Action

/-- The table that a history leads to. -/
def after (arith : Arithmetic) (history : List Action) : SymbolTable :=
  history.foldl Action.apply (empty arith)

/-- A definition is accepted alike without the values of constants. -/
theorem define_unfolded (hsymbol : symbol.unfolded = symbol) :
    table.unfolded.define symbol = (table.define symbol).map unfolded := by
  rw [define, define, find?_unfolded]
  cases table.find? symbol.name with
  | none => simp [Except.map, unfolded, hsymbol]
  | some first => simp [Except.map]

/-- A definition keeps a table backed, by the table behind it with the definition. -/
theorem Backed.define (h : Backed bare table) (hdefine : table.define symbol = .ok table')
    (hsymbol : symbol.unfolded = symbol) : Backed table'.unfolded table' := by
  obtain ⟨hnew, htable⟩ := define_eq_ok.mp hdefine
  have hdefine' : bare.define symbol = .ok table'.unfolded := by
    rw [← h.unfolded_eq, define_unfolded hsymbol, hdefine]
    rfl
  refine ⟨rfl, ?_, ?_, ?_⟩
  · rw [htable]
    exact h.bindings_eq
  · exact nodup_define hdefine h.nodup
  · intro name other value hfind hkind hvalue
    rw [find?_define hdefine] at hfind
    split at hfind
    · -- a constant is entered without a value
      obtain rfl := Option.some.inj hfind
      rw [← hsymbol, Symbol.value_unfolded, if_pos hkind] at hvalue
      cases hvalue
    · obtain ⟨rounds, folding, location, hanswer⟩ := h.answered hfind hkind hvalue
      exact ⟨rounds, folding, location,
        answer_mono (unfolded_unfolded table') (Extends.define hdefine') hanswer⟩

/-- The empty table is backed by itself. -/
theorem backed_empty (arith : Arithmetic) : Backed (empty arith) (empty arith) :=
  ⟨rfl, rfl, List.nodup_nil, fun hfind => by cases hfind⟩

/-- A question leaves a table that keeps nothing but answers. -/
theorem Backed.ask (h : Backed bare table) (query : Query) :
    Backed bare (query.ask.run table).2 := by
  obtain ⟨_, last, _, hrun, -, hlast, -⟩ := query.alike_ask table table ⟨h, h⟩
  rw [hrun]
  exact hlast

/-- An action comes after those before it. -/
theorem after_concat (arith : Arithmetic) (history : List Action) (action : Action) :
    after arith (history ++ [action]) = action.apply (after arith history) := by
  rw [after, List.foldl_append]
  rfl

/-- A history leads to a table that keeps nothing but answers, and whose definitions are those of the
history without the questions. -/
theorem backed_after (arith : Arithmetic) (history : List Action) :
    Backed (after arith (history.filter Action.isDefinition)) (after arith history) := by
  -- by induction on the history from its end
  induction history using List.reverseRecOn with
  | nil => exact backed_empty arith
  | append_singleton history action ih =>
      rw [List.filter_append, after_concat]
      cases action with
      | ask query =>
          rw [List.filter_cons_of_neg (by simp [Action.isDefinition]), List.filter_nil,
            List.append_nil]
          exact ih.ask query
      | define definition =>
          rw [List.filter_cons_of_pos rfl, List.filter_nil, after_concat]
          obtain ⟨symbol, hsymbol, henter⟩ := definition.exists_symbol
          -- a definition is refused by both tables, or accepted by both
          have hbare : (after arith history).unfolded.define symbol =
              ((after arith history).define symbol).map unfolded := define_unfolded hsymbol
          rw [ih.unfolded_eq] at hbare
          rw [Action.apply, Action.apply, henter, henter, hbare]
          cases hdefine : (after arith history).define symbol with
          | error fault => exact ih
          | ok table' => exact ih.define hdefine hsymbol

/-- Definitions extend a table, those that are refused included. -/
theorem extends_foldl {definitions : List Action}
    (h : ∀ action ∈ definitions, action.isDefinition = true) (table : SymbolTable) :
    Extends table (definitions.foldl Action.apply table) := by
  induction definitions generalizing table with
  | nil => exact .refl table
  | cons action rest ih =>
      refine Extends.trans ?_ (ih (fun other hmem => h other (.tail _ hmem)) _)
      cases action with
      | ask query => exact absurd (h _ (.head _)) (by simp [Action.isDefinition])
      | define definition =>
          obtain ⟨symbol, -, henter⟩ := definition.exists_symbol
          rw [Action.apply, henter]
          cases hdefine : table.define symbol with
          | error fault => exact .refl table
          | ok table' => exact .define hdefine

/-- A longer history has more definitions. -/
theorem extends_after (arith : Arithmetic) (history further : List Action) :
    Extends (after arith (history.filter Action.isDefinition))
      (after arith ((history ++ further).filter Action.isDefinition)) := by
  rw [List.filter_append, after, after, List.foldl_append]
  exact extends_foldl (fun action hmem => (List.mem_filter.mp hmem).2) _

/-- Whatever has happened to a table before, every question comes to an end with an empty stack, and
has the answer that it has as the first question to a table with the same definitions.  A value of a
name stays the same from then on, and no constant that the name leads to depends on itself. -/
theorem after_answers (arith : Arithmetic) (history : List Action) :
    (∀ query : Query,
      (∀ bottom, (query.call (Resolver.within bottom ((after arith history).symbols.length + 1))).run
          ⟨after arith history, []⟩ =
        ((query.ask.run (after arith history)).1, ⟨(query.ask.run (after arith history)).2, []⟩)) ∧
      (query.ask.run (after arith history)).1 =
        (query.ask.run (after arith (history.filter Action.isDefinition))).1) ∧
    ∀ name location value, ((valueOf name location).run (after arith history)).1 = .ok value →
      (∀ further location',
        ((valueOf name location').run (after arith (history ++ further))).1 = .ok value) ∧
      ∀ other, ReflTransGen (after arith history).References name other →
        ¬ TransGen (after arith history).References other other := by
  have hbacked := backed_after arith history
  refine ⟨fun query => ⟨fun bottom => query.run_call _ bottom, ?_⟩, ?_⟩
  -- the definitions alone lead to a table that is backed by the same one
  · have hfresh := backed_after arith (history.filter Action.isDefinition)
    rw [List.filter_filter] at hfresh
    simp only [Bool.and_self] at hfresh
    obtain ⟨result, _, _, hrun, hrun', -⟩ := query.alike_ask _ _ ⟨hbacked, hfresh⟩
    rw [hrun, hrun']
  · intro name location value hvalue
    obtain ⟨_, hrun, -⟩ := run_valueOf name location _ hbacked
    rw [hrun] at hvalue
    refine ⟨fun further location' => ?_, fun other hreach => ?_⟩
    · have hbacked' := backed_after arith (history ++ further)
      obtain ⟨_, hrun', -⟩ := run_valueOf name location' _ hbacked'
      rw [hrun']
      exact (Context.nil _ name).answer_eq hbacked'.bare_eq
        (answer_mono hbacked'.bare_eq (extends_after arith history further) hvalue) location'
    · rw [← references_unfolded, hbacked.unfolded_eq] at hreach ⊢
      exact not_transGen_of_answer hbacked.bare_eq hvalue hreach

/-- A chain of constants that is asked for before it is complete, and two constants that depend on
each other. -/
def chainHistory : List Action :=
  [.define (.constant "a" (.bin .add (.sym "b" none) (.num 1 none)) none),
    .ask (.valueOf "a" none),
    .define (.constant "b" (.bin .mul (.sym "c" none) (.num 2 none)) none),
    .define (.constant "x" (.bin .sub (.sym "b" none) (.sym "y" none)) none),
    .define (.constant "y" (.sym "x" none) none),
    .ask .resolveAll,
    .define (.label "c" 21 none),
    .define (.temp "c" 22),
    .ask (.valueOf "x" none)]

/-- The start of the chain has a value, now and later, and does not depend on itself.  The other two
constants are refused as if nothing had been asked before. -/
theorem after_answers_chain :
    ((valueOf "a" none).run (after {} chainHistory)).1 = .ok 43 ∧
      (∀ further location,
        ((valueOf "a" location).run (after {} (chainHistory ++ further))).1 = .ok 43) ∧
      ¬ TransGen (after {} chainHistory).References "a" "a" ∧
      ((Query.valueOf "x" none).ask.run (after {} chainHistory)).1 =
        .error (.found (.circularDefinition ["x", "y", "x"]) none) := by
  have hvalue : ((valueOf "a" none).run (after {} chainHistory)).1 = .ok 43 := by decide +kernel
  have hfresh : ((Query.valueOf "x" none).ask.run
      (after {} (chainHistory.filter Action.isDefinition))).1 =
        .error (.found (.circularDefinition ["x", "y", "x"]) none) := by decide +kernel
  obtain ⟨hqueries, hvalues⟩ := after_answers {} chainHistory
  obtain ⟨hlater, hacyclic⟩ := hvalues "a" none 43 hvalue
  exact ⟨hvalue, hlater, hacyclic "a" .refl, (hqueries (.valueOf "x" none)).2.trans hfresh⟩

end SymbolTable

end Subleq
