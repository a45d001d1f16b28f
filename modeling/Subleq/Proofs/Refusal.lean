import Subleq.Proofs.Assembly
import Subleq.Proofs.Confinement
import Subleq.Proofs.LineGrammar
import Subleq.Proofs.Scanning
import Subleq.Session

/-!
# Refusals

An assembly that gives no image refuses the program: whatever it fails for has a diagnostic, unless
a number is too long for its numeral to be read or written.  The other faults would be those of the
assembler itself, a literal without a cell or a constant without a definition, and every one of them
is ruled out by what an earlier stage has left behind.

`Fault.IsRefusal` is what is left, and all stages are confined to it (`Folding.Confined`).  The
invariant of the tables is `SymbolTable.Founded`, which is weaker than soundness: an assembly that
is about to be refused need not have that.  It bounds the values of symbols if the numbers are short
(`Assembly.IsShort`), since every number that a diagnostic or a listing shows is one of the program,
a value, or the result of one operation on values.

Building the image is different: it can fail only for its listing
(`Assembly.Prepared.confined_buildImage`), because a literal of an expansion fits into a cell and is
therefore pooled as it is.
-/

namespace Subleq

open Folding

namespace Fault

variable {Short : Prop}

/-- The program is at fault for a reason that was found at a place, and no line of it is quoted yet;
or, unless the numbers are short, one of them cannot be written. -/
def IsRefusal (Short : Prop) (fault : Fault) : Prop :=
  (∃ cause location, fault = .source (.found cause location)) ∨
    ¬ Short ∧ fault = .excess .unwritten

/-- What is found is a refusal, if it can be worded or the numbers are not short. -/
theorem isRefusal_found {cause : Cause} (hshort : Short → cause.isWritable = true)
    (location : Option Location) : (Fault.found cause location).IsRefusal Short := by
  unfold Fault.found ofDiagnostic
  split
  · exact .inl ⟨cause, location, rfl⟩
  · next hwritable => exact .inr ⟨fun hs => hwritable (hshort hs), rfl⟩

/-- The causes that the stages give are refusals. -/
theorem allowsOthers_isRefusal : AllowsOthers Short (IsRefusal Short) where
  source cause location _ _ := .inl ⟨cause, location, rfl⟩
  excess hlong := .inr ⟨hlong, rfl⟩

end Fault

/-! ## Tables -/

/-- A constant has a definition.  If the numbers are short, then the definition can be written, and
the value is bounded by a width. -/
structure Symbol.Founded (Short : Prop) (width : Width) (symbol : Symbol) : Prop where
  defined : symbol.kind = .constant → symbol.definition.isSome
  writable : Short → ∀ e, symbol.definition = some e → e.isWritable = true
  bounded : Short → ∀ value, symbol.value = some value → width.Bounds value

namespace SymbolTable

variable {Short : Prop} {width : Width} {table table' : SymbolTable} {symbol : Symbol}

/-- The symbols are founded, nothing is bound from outside, and the pooled values are different
contents of cells, each with a symbol. -/
structure Founded (Short : Prop) (width : Width) (table : SymbolTable) : Prop where
  width_eq : table.arith.width = width
  unbound : table.bindings = []
  symbols : ∀ symbol ∈ table.symbols, symbol.Founded Short width
  entered : ∀ value ∈ table.pool.values, literalName value ∈ table.symbols.map Symbol.name
  fits : ∀ value ∈ table.pool.values, width.Fits value
  nodup : table.pool.values.Nodup

namespace Founded

/-- The empty table is founded. -/
theorem empty (arith : Arithmetic) : Founded Short arith.width (SymbolTable.empty arith) where
  width_eq := rfl
  unbound := rfl
  symbols := List.forall_mem_nil _
  entered := List.forall_mem_nil _
  fits := List.forall_mem_nil _
  nodup := List.nodup_nil

/-- A table stays founded when a founded symbol is added. -/
theorem define (h : Founded Short width table) (hsymbol : symbol.Founded Short width)
    (hdefine : table.define symbol = .ok table') : Founded Short width table' := by
  obtain ⟨-, rfl⟩ := define_eq_ok.mp hdefine
  refine ⟨h.width_eq, h.unbound, ?_, ?_, h.fits, h.nodup⟩
  · exact List.forall_mem_append.mpr ⟨h.symbols, List.forall_mem_singleton.mpr hsymbol⟩
  · intro value hmem
    rw [List.map_append]
    exact List.mem_append_left _ (h.entered value hmem)

/-- A value that is kept has to be bounded. -/
theorem setValue (h : Founded Short width table) (name : String) {value : Int}
    (hvalue : Short → width.Bounds value) : Founded Short width (table.setValue name value) := by
  refine ⟨h.width_eq, h.unbound, fun symbol hmem => ?_, ?_, h.fits, h.nodup⟩
  · obtain ⟨old, hold, rfl⟩ := List.mem_map.mp hmem
    split
    · refine ⟨(h.symbols old hold).defined, (h.symbols old hold).writable, ?_⟩
      rintro hshort _ ⟨⟩
      exact hvalue hshort
    · exact h.symbols old hold
  · rw [names_setValue]
    exact h.entered

/-- A literal that is new gets its symbol, and one that is not has it already. -/
theorem intern {value : Int} {literal : Literal} (h : Founded Short width table)
    (hyields : Yields (SymbolTable.intern value) table literal table') :
    Founded Short width table' := by
  obtain ⟨counted, hcounted, hresult⟩ := yields_intern hyields
  have hvalues := Pool.values_intern table.pool (table.arith.width.wrap value)
  -- a value that is pooled already changes nothing but its count
  by_cases hmem : table.arith.width.wrap value ∈ table.pool.values
  · rw [if_pos hmem] at hresult
    rw [Pool.enter, if_pos hmem] at hvalues
    rw [hresult, hcounted]
    refine ⟨h.width_eq, h.unbound, h.symbols, fun other hother => h.entered other ?_,
      fun other hother => h.fits other ?_, ?_⟩
    · rwa [← hvalues]
    · rwa [← hvalues]
    · rw [hvalues]
      exact h.nodup
  · rw [if_neg hmem] at hresult
    rw [Pool.enter, if_neg hmem] at hvalues
    obtain ⟨-, rfl⟩ := define_eq_ok.mp hresult
    rw [hcounted]
    have hfits : width.Fits (table.arith.width.wrap value) := by
      rw [h.width_eq]
      exact width.fits_wrap value
    -- the new literal has its symbol, fits into a cell, and is there once
    refine ⟨h.width_eq, h.unbound, ?_, ?_, ?_, ?_⟩
    · refine List.forall_mem_append.mpr ⟨h.symbols, List.forall_mem_singleton.mpr ⟨?_, ?_, ?_⟩⟩
      · intro hkind
        cases hkind
      · rintro _ _ ⟨⟩
      · rintro _ _ ⟨⟩
    · show ∀ other ∈ (table.pool.intern _).values, literalName other ∈ (_ ++ [_]).map Symbol.name
      rw [hvalues, List.map_append]
      refine List.forall_mem_append.mpr ⟨fun other hother => ?_, List.forall_mem_singleton.mpr ?_⟩
      · exact List.mem_append_left _ (h.entered other hother)
      · exact List.mem_append_right _ (.head _)
    · show ∀ other ∈ (table.pool.intern _).values, width.Fits other
      rw [hvalues]
      exact List.forall_mem_append.mpr ⟨h.fits, List.forall_mem_singleton.mpr hfits⟩
    · show (table.pool.intern _).values.Nodup
      rw [hvalues]
      exact h.nodup.append (List.nodup_singleton _) (List.disjoint_singleton.mpr hmem)

/-- The pool has no more values than a cell has contents. -/
theorem length_values_le (h : Founded Short width table) :
    table.pool.values.length ≤ 2 ^ width.bits := by
  have hsubset : table.pool.values.toFinset ⊆ Finset.Icc width.min width.max := by
    intro value hvalue
    exact Finset.mem_Icc.mpr (h.fits value (List.mem_toFinset.mp hvalue))
  have hcard := Finset.card_le_card hsubset
  rw [List.toFinset_card_of_nodup h.nodup, Int.card_Icc, Width.min_eq, Width.max_eq] at hcard
  have htwo := width.two_pow_bits
  have hhalf := width.two_le_half
  have hcast : ((2 ^ width.bits : Nat) : Int) = 2 ^ width.bits := by push_cast; rfl
  omega

end Founded

/-- A definition adds a founded symbol or is refused. -/
theorem confined_define (h : Founded Short width table) (hsymbol : symbol.Founded Short width) :
    Confined (Fault.IsRefusal Short) (fun _ => Founded Short width)
      (update (·.define symbol)) table :=
  .update (fun _ => h.define hsymbol) (Fault.allowsOthers_isRefusal.within_define table symbol)

/-! ## Values -/

section Values

variable (hnarrow : Short → width.IsNarrow)

/-- A name is resolved, or refused, if its value is. -/
theorem confined_resolveWith {value : String → Option Location → Folding SymbolTable Int}
    (hvalue : ∀ name location table, Founded Short width table →
      Confined (Fault.IsRefusal Short) (Bounded Short width (Founded Short width))
        (value name location) table)
    (name : String) (location : Option Location) (table : SymbolTable)
    (h : Founded Short width table) :
    Confined (Fault.IsRefusal Short) (Bounded Short width (Founded Short width))
      (resolveWith value name location) table := by
  apply Confined.read
  rw [h.unbound]
  exact hvalue name location table h

/-- A symbol has its value stored or folded, or is refused. -/
theorem confined_valueOrFold {fold : Symbol → Folding SymbolTable Int} (name : String)
    (location : Option Location) (h : Founded Short width table)
    (hfold : ∀ symbol ∈ table.symbols, symbol.kind = .constant →
      Confined (Fault.IsRefusal Short) (Bounded Short width (Founded Short width)) (fold symbol)
        table) :
    Confined (Fault.IsRefusal Short) (Bounded Short width (Founded Short width))
      (valueOrFold fold name location) table := by
  apply Confined.read
  split
  · exact .fail (Fault.isRefusal_found (fun _ => rfl) _)
  · next symbol hfind =>
    have hmem := List.mem_of_find?_eq_some hfind
    split
    · next value hvalue =>
      exact .ret ⟨h, fun hshort => (h.symbols symbol hmem).bounded hshort value hvalue⟩
    · split
      · exact .fail (Fault.isRefusal_found (fun _ => rfl) _)
      · next hkind => exact hfold symbol hmem (not_not.mp hkind)

include hnarrow

/-- A constant of a table is folded with its definition. -/
theorem confined_foldConstant {value : String → Option Location → Folding SymbolTable Int}
    (hvalue : ∀ name location table, Founded Short width table →
      Confined (Fault.IsRefusal Short) (Bounded Short width (Founded Short width))
        (value name location) table)
    (hsymbol : symbol ∈ table.symbols) (hkind : symbol.kind = .constant)
    (h : Founded Short width table) :
    Confined (Fault.IsRefusal Short) (Bounded Short width (Founded Short width))
      (foldConstant value symbol) table := by
  obtain rfl := h.width_eq
  have hfounded := h.symbols symbol hsymbol
  unfold foldConstant
  split
  -- a constant always has a definition
  · next hnone =>
    have hdefined := hfounded.defined hkind
    rw [hnone] at hdefined
    cases hdefined
  · next definition hdefinition =>
    apply Confined.read
    refine Confined.bind (Expr.confined_fold Fault.allowsOthers_isRefusal hnarrow ?_ definition
      (fun hshort => hfounded.writable hshort definition hdefinition)
      (fun name _ => confined_resolveWith hvalue name) table h) fun result s hs => ?_
    · rintro _ ⟨⟩
    · exact .change (.ret ⟨hs.1.setValue _ hs.2, hs.2⟩)

/-- A value is found, or refused, in so many rounds. -/
theorem confined_valueWithin (rounds : Nat) (folding : List String) (name : String)
    (location : Option Location) (table : SymbolTable) (h : Founded Short width table) :
    Confined (Fault.IsRefusal Short) (Bounded Short width (Founded Short width))
      (valueWithin rounds folding name location) table := by
  have hcircular : ∀ {folding : List String} {symbol : Symbol},
      (circular folding symbol).IsRefusal Short :=
    Fault.isRefusal_found (fun _ => rfl) _
  induction rounds generalizing folding name location table with
  | zero => exact confined_valueOrFold name location h fun _ _ _ => .fail hcircular
  | succ rounds ih =>
      refine confined_valueOrFold name location h fun symbol hsymbol hkind => ?_
      split
      · exact .fail hcircular
      · exact confined_foldConstant hnarrow (ih _) hsymbol hkind h

/-- A name has a value, or is refused. -/
theorem confined_valueOf (name : String) (location : Option Location) (table : SymbolTable)
    (h : Founded Short width table) :
    Confined (Fault.IsRefusal Short) (Bounded Short width (Founded Short width))
      (valueOf name location) table :=
  .read (confined_valueWithin hnarrow _ _ name location table h)

/-- So has an expression. -/
theorem confined_evaluate {e : Expr} (he : Short → e.isWritable = true) {here : Option Int}
    (hhere : ∀ position, here = some position → Short → width.Bounds position)
    (h : Founded Short width table) :
    Confined (Fault.IsRefusal Short) (Bounded Short width (Founded Short width)) (evaluate e here)
      table := by
  obtain rfl := h.width_eq
  exact .read (Expr.confined_fold Fault.allowsOthers_isRefusal hnarrow hhere e he
    (fun name _ => confined_resolveWith (confined_valueOf hnarrow) name) table h)

/-- So has every constant. -/
theorem confined_resolveEach (symbols : List Symbol) (h : Founded Short width table) :
    Confined (Fault.IsRefusal Short) (fun _ => Founded Short width) (resolveEach symbols)
      table := by
  induction symbols generalizing table with
  | nil => exact .ret h
  | cons symbol rest ih =>
      unfold resolveEach
      split
      · exact (confined_valueOf hnarrow _ _ table h).bind fun _ s hs => ih hs.1
      · exact ih h

/-- In founded tables every expression that can be written is refused for the sake of the
program. -/
theorem discipline_founded :
    Discipline Short (Fault.IsRefusal Short) width (Founded Short width)
      fun e => Short → e.isWritable = true where
  others := Fault.allowsOthers_isRefusal
  narrow := hnarrow
  width_eq _ _ h := h.width_eq
  known hshort _ he := he hshort
  evaluate he _ _ hhere h := confined_evaluate hnarrow he hhere h
  intern := Founded.intern

end Values

/-- A name that is mentioned and not defined is refused. -/
theorem within_checkMentions (table : SymbolTable) :
    Fault.Within (Fault.IsRefusal Short) table.checkMentions := by
  unfold checkMentions
  split
  · exact Fault.within_error (Fault.isRefusal_found (fun _ => rfl) _)
  · exact Fault.within_ok _

end SymbolTable

/-! ## The first pass -/

namespace Width

variable {w : Width} {bound : Int} {size address cells : Nat}

/-- The addresses of an image are bounded, and so is the one after the last. -/
theorem bounds_of_le_sizeLimit (h : (size : Int) ≤ Layout.sizeLimit w bound) : w.Bounds size := by
  have hmax : (size : Int) ≤ w.max + 1 := h.trans (Int.min_le_right _ _)
  have hmin : w.min ≤ size := fits_zero.1.trans (Int.natCast_nonneg size)
  exact bounds_of_le_max_add_one hmin hmax

/-- The limit on the size of an image is a bound that is asked for, or a power of two. -/
theorem IsNarrow.isWritable_sizeLimit (h : w.IsNarrow) (hbound : Digits.isWritable bound = true) :
    Digits.isWritable (Layout.sizeLimit w bound) = true := by
  unfold Layout.sizeLimit
  rcases min_choice bound (w.max + 1) with heq | heq
  · rw [heq]
    exact hbound
  · have hmin : w.min ≤ w.max + 1 := Int.le_add_one (fits_zero.1.trans fits_zero.2)
    rw [heq]
    exact h.isWritable (bounds_of_le_max_add_one hmin le_rfl)

/-- An address to which the size of an item is added. -/
theorem IsNarrow.isWritable_add (h : w.IsNarrow) (haddress : w.Bounds address)
    (hcells : cells < Capacity.cellBound) (hsize : size ≤ 2 ^ w.bits + 15 + cells) :
    Digits.isWritable (address + size : Nat) = true := by
  obtain ⟨k, hbits, hword, hlimit⟩ : ∃ k, w.bits ≤ k ∧ 64 ≤ k ∧ k + 2 < Digits.bitLimit := by
    refine ⟨Max.max w.bits 64, le_max_left _ _, le_max_right _ _, ?_⟩
    unfold IsNarrow Digits.bitLimit at *
    omega
  have hpow : 2 ^ w.bits ≤ 2 ^ k := Nat.pow_le_pow_right (by decide) hbits
  have hcellBound : 15 + Capacity.cellBound ≤ 2 ^ k :=
    le_trans (by decide) (Nat.pow_le_pow_right (by decide) hword)
  have hsum : 2 ^ (k + 2) = 2 ^ 2 * 2 ^ k := by rw [pow_add, mul_comm]
  have haddress' : address ≤ 2 ^ w.bits := haddress
  refine Digits.isWritable_of_le_two_pow hlimit ?_
  rw [Int.natAbs_natCast]
  omega

/-- The size of an image: an address, the size of the pool, and the temp fields. -/
theorem IsNarrow.isWritable_storage (h : w.IsNarrow) (haddress : w.Bounds address)
    (hcells : cells ≤ 2 ^ w.bits) :
    Digits.isWritable (address + cells + Temp.all.length : Int) = true := by
  have haddress' : address ≤ 2 ^ w.bits := haddress
  have hfour : 2 ^ 2 ≤ 2 ^ w.bits := Nat.pow_le_pow_right (by decide) w.two_le_bits
  have hproduct : 2 ^ 2 * 2 ^ w.bits ≤ 2 ^ w.bits * 2 ^ w.bits := Nat.mul_le_mul_right _ hfour
  have htemps : Temp.all.length = 3 := rfl
  refine h.isWritable_of_le ?_
  rw [two_mul, pow_add]
  omega

end Width

/-- No operation has more than five instructions. -/
theorem Operation.triples_le (op : Operation) : op.triples ≤ 5 := by
  cases op with
  | add dst src =>
      rw [triples_add]
      split <;> decide
  | _ => simp [triples, opcode, Opcode.length, Length.triples]

namespace Statement

/-- The number of cells that a statement takes for data. -/
def dataCells : Statement → Nat
  | .item (.data _ values) _ => (values.map Datum.size).foldr (· + ·) 0
  | _ => 0

/-- The numbers of a statement can be written, and its data has fewer cells than a memory can
have. -/
structure IsShort (statement : Statement) : Prop where
  writable : statement.isWritable = true
  cells : statement.dataCells < Capacity.cellBound

end Statement

namespace Layout

open SymbolTable

variable {Short : Prop} {width : Width}

section Resolve

variable (hnarrow : Short → width.IsNarrow)

include hnarrow

/-- A directive for more bits than a cell has is refused. -/
theorem within_checkWidth (name : String) (size : DataSize) (location : Location) :
    Fault.Within (Fault.IsRefusal Short) (checkWidth width name size location) := by
  unfold checkWidth
  split
  · refine Fault.within_error (Fault.isRefusal_found (fun hs => ?_) _)
    exact (hnarrow hs).isWritable_bits
  · exact Fault.within_ok _

/-- The size of an item is no more than the bound on values, or the number of cells of its data. -/
theorem confined_bodySize {body : Body} {location : Location}
    (hbody : Short → (Statement.item body location).IsShort) {table : SymbolTable}
    (h : Founded Short width table) :
    Confined (Fault.IsRefusal Short)
      (fun size s => Founded Short width s ∧
        (∀ {op}, body = .operation op → size = op.triples * tripleSize) ∧
        (Short → size ≤ 2 ^ width.bits + 15 + (Statement.item body location).dataCells))
      (bodySize body location) table := by
  -- a directive for more bits than a cell has is refused before anything else
  have hwidth (name : String) (size : DataSize) : Confined (Fault.IsRefusal Short)
      (fun _ => Founded Short width) (liftM (checkWidth table.arith.width name size location))
      table := by
    rw [h.width_eq]
    exact .lift (fun _ _ => h) (within_checkWidth hnarrow name size location)
  apply Confined.read
  cases body with
  | operation op =>
      refine .ret ⟨h, ?_, fun _ => ?_⟩
      · rintro _ ⟨⟩
        rfl
      · have hle := op.triples_le
        have hpow : 0 < 2 ^ width.bits := Nat.two_pow_pos _
        unfold tripleSize
        omega
  | data size values =>
      refine (hwidth _ size).bind fun _ s hs => .ret ⟨hs, ?_, fun _ => ?_⟩
      · rintro _ ⟨⟩
      · exact Nat.le_add_left _ _
  | reserve size count =>
      refine (hwidth _ size).bind fun _ s hs => ?_
      -- the count is evaluated by the first pass, so `$` is not allowed in it
      refine (confined_evaluate hnarrow (fun hshort => (hbody hshort).writable) ?_ hs).bind
        fun cells s' hs' => ?_
      · rintro _ ⟨⟩
      · split
        · refine .fail (Fault.isRefusal_found (fun hshort => ?_) _)
          exact (hnarrow hshort).isWritable (hs'.2 hshort)
        · refine .ret ⟨hs'.1, ?_, fun hshort => ?_⟩
          · rintro _ ⟨⟩
          · have hbounds : cells.natAbs ≤ 2 ^ width.bits := hs'.2 hshort
            omega

omit hnarrow in
/-- The first walk defines the constants or is refused. -/
theorem confined_defineConstants {statements : List Statement}
    (hstatements : Short → ∀ statement ∈ statements, statement.IsShort) {table : SymbolTable}
    (h : Founded Short width table) :
    Confined (Fault.IsRefusal Short) (fun _ => Founded Short width) (defineConstants statements)
      table := by
  induction statements generalizing table with
  | nil => exact .ret h
  | cons statement rest ih =>
      have hrest : Short → ∀ statement ∈ rest, statement.IsShort :=
        fun hshort => (List.forall_mem_cons.mp (hstatements hshort)).2
      cases statement with
      | constant keyword name value location =>
          refine (confined_define h ⟨fun _ => rfl, ?_, ?_⟩).bind fun _ s hs => ih hrest hs
          · rintro hshort _ ⟨⟩
            exact (hstatements hshort _ List.mem_cons_self).writable
          · rintro _ _ ⟨⟩
      | label name location => exact ih hrest h
      | item body location => exact ih hrest h

omit hnarrow in
/-- Labels are defined or refused. -/
theorem confined_defineLabels {address : Nat} (haddress : Short → width.Bounds address)
    (labels : List (String × Location)) {table : SymbolTable} (h : Founded Short width table) :
    Confined (Fault.IsRefusal Short) (fun _ => Founded Short width) (defineLabels address labels)
      table := by
  induction labels generalizing table with
  | nil => exact .ret h
  | cons label rest ih =>
      refine (confined_define h ⟨?_, ?_, ?_⟩).bind fun _ s hs => ih hs
      · rintro ⟨⟩
      · rintro _ _ ⟨⟩
      · rintro hshort _ ⟨⟩
        exact haddress hshort

/-- The items of a program are in reach and can be written if its numbers are short. -/
theorem confined_placeItems {bound : Int} (hbound : Short → Digits.isWritable bound = true)
    {address : Nat} (haddress : Short → width.Bounds address)
    (pending : List (String × Location)) {statements : List Statement}
    (hstatements : Short → ∀ statement ∈ statements, statement.IsShort) {table : SymbolTable}
    (h : Founded Short width table) :
    Confined (Fault.IsRefusal Short)
      (fun placed s => Founded Short width s ∧ (Short → width.Bounds placed.2 ∧
        ∀ item ∈ placed.1, item.InReach width ∧ item.body.isWritable = true))
      (placeItems (sizeLimit width bound) address pending statements) table := by
  -- by induction on the statements; the end of the items so far is within reach
  induction statements generalizing address pending table with
  | nil =>
      refine (confined_defineLabels haddress pending h).bind fun _ s hs => .ret ⟨hs, ?_⟩
      exact fun hshort => ⟨haddress hshort, List.forall_mem_nil _⟩
  | cons statement rest ih =>
      have hrest : Short → ∀ statement ∈ rest, statement.IsShort :=
        fun hshort => (List.forall_mem_cons.mp (hstatements hshort)).2
      cases statement with
      | label name location => exact ih haddress _ hrest h
      | constant keyword name value location => exact ih haddress _ hrest h
      | item body location =>
          have hitem : Short → (Statement.item body location).IsShort :=
            fun hshort => hstatements hshort _ List.mem_cons_self
          refine (confined_bodySize hnarrow hitem h).bind fun size s₁ hsize => ?_
          obtain ⟨hs₁, htriples, hsize⟩ := hsize
          refine (confined_defineLabels haddress pending hs₁).bind fun _ s₂ hs₂ => ?_
          -- the end is checked after each item, so that the next one starts within reach
          have hcheck : Confined (Fault.IsRefusal Short)
              (fun _ s => Founded Short width s ∧ width.Bounds (address + size : Nat))
              (liftM (checkSize (sizeLimit width bound) ((address + size : Nat) : Int))) s₂ := by
            refine .lift (fun _ hok => ⟨hs₂, ?_⟩)
              (Fault.allowsOthers_isRefusal.within_checkSize ?_ ?_)
            · exact Width.bounds_of_le_sizeLimit (le_of_checkSize hok)
            · exact fun hshort => (hnarrow hshort).isWritable_sizeLimit (hbound hshort)
            · exact fun hshort => (hnarrow hshort).isWritable_add (haddress hshort)
                (hitem hshort).cells (hsize hshort)
          refine hcheck.bind fun _ s₃ hs₃ => ?_
          refine (ih (fun _ => hs₃.2) [] hrest hs₃.1).bind fun placed s₄ hs₄ => ?_
          refine .ret ⟨hs₄.1, fun hshort => ⟨(hs₄.2 hshort).1, ?_⟩⟩
          exact List.forall_mem_cons.mpr ⟨⟨⟨hs₃.2, htriples⟩, (hitem hshort).writable⟩,
            (hs₄.2 hshort).2⟩

/-- The jump in front of a program is an item like the others. -/
theorem confined_resolve {bound : Int} (hbound : Short → Digits.isWritable bound = true)
    (withEntryJump : Bool) {statements : List Statement}
    (hstatements : Short → ∀ statement ∈ statements, statement.IsShort) {table : SymbolTable}
    (h : Founded Short width table) :
    Confined (Fault.IsRefusal Short)
      (fun layout s => Founded Short width s ∧ (Short → width.Bounds layout.itemsEnd ∧
        ∀ item ∈ layout.items, item.InReach width ∧ item.body.isWritable = true))
      (resolve (sizeLimit width bound) withEntryJump statements) table := by
  -- the inserted jump has three cells, which every width can count
  have hsmall : ∀ {n : Nat}, n ≤ 3 → width.Bounds n := by
    intro n hn
    have hfour : 2 ^ 2 ≤ 2 ^ width.bits := Nat.pow_le_pow_right (by decide) width.two_le_bits
    have hbound : n ≤ 2 ^ width.bits := by omega
    exact hbound
  refine (confined_defineConstants hstatements h).bind fun _ s₁ hs₁ => ?_
  refine (confined_placeItems hnarrow hbound (fun _ => hsmall ?_) [] hstatements hs₁).bind
    fun placed s₂ hs₂ => .ret ⟨hs₂.1, fun hshort => ⟨(hs₂.2 hshort).1, ?_⟩⟩
  · split <;> decide
  · obtain ⟨-, hitems⟩ := hs₂.2 hshort
    split
    · refine List.forall_mem_append.mpr ⟨?_, hitems⟩
      unfold entryJump
      split
      · exact List.forall_mem_nil _
      -- the jump goes to an item within reach
      · next first hfirst =>
        have hreach := (hitems first (List.mem_of_find?_eq_some hfirst)).1.bounds
        have haddress : width.Bounds first.address := by
          unfold Item.endAddress at hreach
          unfold Width.Bounds at hreach ⊢
          omega
        refine List.forall_mem_singleton.mpr ⟨⟨hsmall (Nat.le_refl 3), ?_⟩, ?_⟩
        · rintro _ ⟨⟩
          rfl
        · exact Bool.and_eq_true_iff.mpr ⟨(hnarrow hshort).isWritable haddress, rfl⟩
    · exact hitems

end Resolve

end Layout

/-! ## The image -/

/-- A pooled value has a cell once the pool has a place. -/
theorem Pool.exists_addressOf {pool : Pool} {value : Int} (base : Int) (h : value ∈ pool.values) :
    ∃ address, (pool.place base).addressOf value = .ok address := by
  have hmem : value ∈ (pool.place base).literals.map Literal.value := by
    rwa [place, values_assign]
  obtain ⟨literal, hliteral, hvalue⟩ := List.mem_map.mp hmem
  obtain ⟨found, hfound⟩ : ∃ found, (pool.place base).find? value = some found := by
    rw [← Option.isSome_iff_exists, find?, List.find?_isSome]
    exact ⟨literal, hliteral, beq_iff_eq.mpr hvalue⟩
  obtain ⟨address, haddress⟩ := Option.isSome_iff_exists.mp
    (isSome_address_of_assign (List.mem_of_find?_eq_some hfound))
  refine ⟨address, ?_⟩
  unfold addressOf
  rw [hfound, Option.bind_some, haddress]

namespace Assembly

variable {table : SymbolTable} {pool : Pool} {base : Int}

section Rows

variable (hpool : table.pool = pool.place base)
  (htemps : ∀ field : Temp, ∃ address, table.value? field.name = some address)

include hpool htemps

/-- A slot can be resolved if its literal is pooled. -/
theorem exists_resolve {slot : Slot}
    (hslot : ∀ value, slot = .literal value → value ∈ pool.values) :
    ∃ cell, Yields slot.resolve table cell table := by
  cases slot with
  | literal value =>
      obtain ⟨address, haddress⟩ := Pool.exists_addressOf base (hslot value rfl)
      refine ⟨address, ?_⟩
      simp only [Slot.resolve, yields_bind, yields_get, yields_liftM]
      exact ⟨table, table, ⟨rfl, rfl⟩, hpool ▸ haddress, rfl⟩
  | address value => exact ⟨value, yields_pure.mpr ⟨rfl, rfl⟩⟩
  | temp field =>
      obtain ⟨address, haddress⟩ := htemps field
      exact ⟨address, SymbolTable.yields_valueOf haddress⟩

/-- Triples whose literals are pooled have rows. -/
theorem exists_tripleRows (item : Item) (op : Operation) {triples : List Triple}
    (h : ∀ value, .literal value ∈ triples.flatMap Triple.slots → value ∈ pool.values) :
    ∃ rows, Yields (tripleRows item op triples) table rows table := by
  induction triples with
  | nil => exact ⟨[], yields_pure.mpr ⟨rfl, rfl⟩⟩
  | cons triple rest ih =>
      -- the literals are pooled and the temp fields placed, so every slot has a cell
      have hslots : ∀ slot ∈ triple.slots, ∃ cell, Yields slot.resolve table cell table := by
        intro slot hslot
        refine exists_resolve hpool htemps fun value hvalue => h value ?_
        exact List.mem_flatMap.mpr ⟨triple, by simp, hvalue ▸ hslot⟩
      obtain ⟨a, ha⟩ := hslots triple.a (by simp [Triple.slots])
      obtain ⟨b, hb⟩ := hslots triple.b (by simp [Triple.slots])
      obtain ⟨c, hc⟩ := hslots triple.c (by simp [Triple.slots])
      obtain ⟨rows, hrows⟩ := ih fun value hvalue => h value (by simp [hvalue])
      refine ⟨tripleRow item op triple [a, b, c] :: rows, ?_⟩
      simp only [tripleRows, Triple.resolve, yields_bind, yields_pure]
      exact ⟨_, _, ⟨a, _, ha, b, _, hb, c, _, hc, rfl, rfl⟩, rows, _, hrows, rfl, rfl⟩

/-- So have all contents. -/
theorem exists_itemsRows {contents : List (Item × Content)}
    (h : ∀ pair ∈ contents, ∀ value ∈ pair.2.literals, value ∈ pool.values) :
    ∃ rows, Yields (itemsRows contents) table rows table := by
  induction contents with
  | nil => exact ⟨[], yields_pure.mpr ⟨rfl, rfl⟩⟩
  | cons pair rest ih =>
      obtain ⟨item, content⟩ := pair
      obtain ⟨first, hfirst⟩ : ∃ rows, Yields (itemRows item content) table rows table := by
        cases content with
        | code op triples =>
            refine exists_tripleRows hpool htemps item op fun value hvalue => ?_
            exact h (item, .code op triples) (by simp) value
              (List.mem_filterMap.mpr ⟨_, hvalue, rfl⟩)
        | cells cells => exact ⟨_, yields_pure.mpr ⟨rfl, rfl⟩⟩
      obtain ⟨others, hothers⟩ := ih fun pair hpair => h pair (by simp [hpair])
      refine ⟨first ++ others, ?_⟩
      simp only [itemsRows, yields_bind, yields_pure]
      exact ⟨first, table, hfirst, others, table, hothers, rfl, rfl⟩

end Rows

/-- The rows of an image can always be built once the storage has its places. -/
theorem Prepared.exists_rows {config : Config} {defines : Defines} {source file : String}
    (P : Prepared config defines source file) :
    ∃ rows, Yields (itemsRows P.contents) P.stored.2 rows P.stored.2 := by
  obtain ⟨-, hinterns, hbecomes⟩ := P.expanded_sound
  obtain ⟨-, hextends, hpool, -⟩ := P.stored_sound
  -- a literal is pooled as what it is wrapped to, which is the literal itself
  have hpooled : ∀ pair ∈ P.contents, ∀ value ∈ pair.2.literals, value ∈ P.values := by
    intro pair hpair value hvalue
    have hliteral : value ∈ pair.1.literals P.width P.table.value? := by
      rwa [← (hbecomes _ hextends.le pair hpair).literals_eq]
    obtain ⟨op, slots, -, hslots, hslot⟩ := Item.mem_literals hliteral
    have hfits : P.width.Fits value := (Operation.origin_of_mem hslots hslot).fits_literal
    have hused : value ∈ (P.contents.flatMap (·.2.literals)).map P.width.wrap :=
      List.mem_map.mpr ⟨value, List.mem_flatMap.mpr ⟨pair, hpair, hvalue⟩,
        Width.wrap_of_fits hfits⟩
    rw [Prepared.values, hinterns.values_eq, P.checked_pool]
    show value ∈ List.foldl Pool.enter [] _
    rwa [Pool.foldl_enter_nil, List.mem_eraseDups]
  exact exists_itemsRows hpool P.value?_temp hpooled

/-- Then only the listing can keep it from being built. -/
theorem Prepared.confined_buildImage {config : Config} {defines : Defines} {source file : String}
    (P : Prepared config defines source file) {Short : Prop} {Allowed : Fault → Prop}
    (hothers : Fault.AllowsOthers Short Allowed)
    (hlistable : Short → ∀ pair ∈ P.contents, isListable pair.1 pair.2 = true) :
    Confined Allowed (fun _ _ => True)
      (buildImage config P.size (P.size - Temp.all.length) P.contents) P.stored.2 := by
  obtain ⟨rows, hrows⟩ := P.exists_rows
  refine .after hrows ?_
  have hlisting : Confined Allowed (fun _ _ => True)
      (liftM (checkListing P.contents) : Folding SymbolTable Unit) P.stored.2 := by
    refine .lift (fun _ _ => trivial) fun fault hfault => ?_
    unfold checkListing at hfault
    split at hfault
    · cases hfault
    · next hunlisted =>
      obtain rfl := Except.error.inj hfault
      refine hothers.excess fun hshort => hunlisted ?_
      exact List.all_eq_true.mpr (hlistable hshort)
  exact hlisting.bind fun _ _ _ => trivial

/-! ## All stages -/

/-- The numbers of an assembly are short: its cells are narrow, and the numbers of its options, of
the constants that are defined from outside, and of the source can be written.  The source may have
a numeral that is too long if it is refused before that. -/
structure IsShort (config : Config) (defines : Defines) (source file : String) : Prop where
  bits : 2 * config.cellBits < Digits.bitLimit
  size : Digits.isWritable config.maxImageSize = true
  defines : ∀ pair ∈ defines, Digits.isWritable pair.2 = true
  tokens : ∀ tokens, Token.scan source file = .ok tokens →
    ∀ token ∈ tokens, token.kind.isWritable = true
  cells : ∀ statements, Statement.parse source file = .ok statements →
    ∀ statement ∈ statements, statement.dataCells < Capacity.cellBound

section Short

variable {config : Config} {defines : Defines} {source file : String} {Short : Prop}

/-- The statements of a source are short if its tokens are. -/
theorem IsShort.statements (h : IsShort config defines source file) {statements : List Statement}
    (hparse : Statement.parse source file = .ok statements) :
    ∀ statement ∈ statements, statement.IsShort := by
  have hcells := h.cells statements hparse
  obtain ⟨tokens, hscan, hreading⟩ := bind_eq_ok.mp hparse
  have hreads := Statement.reads_ofTokens tokens
  have hwritable := hreads.post statements (ofReading_eq_ok.mp hreading) (h.tokens tokens hscan)
  exact fun statement hmem => ⟨hwritable statement hmem, hcells statement hmem⟩

/-- The constants of the command line are defined or refused. -/
theorem within_definePredefined (table : SymbolTable) (defines : Defines) :
    Fault.Within (Fault.IsRefusal Short) (definePredefined table defines) := by
  induction defines generalizing table with
  | nil => exact Fault.within_ok _
  | cons first rest ih =>
      rw [definePredefined]
      cases hdefine : table.defineConstant first.1 (.num first.2 (some .predefined))
          (some .predefined) with
      | error fault =>
          intro fault' h
          rw [← Except.error.inj h]
          exact Fault.allowsOthers_isRefusal.within_define table _ fault hdefine
      | ok table' =>
          exact ih table'

/-- They leave a founded table. -/
theorem founded_definePredefined {width : Width} {table table' : SymbolTable} {defines : Defines}
    (h : table.Founded Short width)
    (hdefines : Short → ∀ pair ∈ defines, Digits.isWritable pair.2 = true)
    (hdefine : definePredefined table defines = .ok table') : table'.Founded Short width := by
  induction defines generalizing table with
  | nil =>
      obtain rfl := Except.ok.inj hdefine
      exact h
  | cons first rest ih =>
      rw [definePredefined] at hdefine
      cases hfirst : table.defineConstant first.1 (.num first.2 (some .predefined))
          (some .predefined) with
      | error fault =>
          rw [hfirst] at hdefine
          cases hdefine
      | ok table₁ =>
          rw [hfirst] at hdefine
          have hparts := fun hshort => List.forall_mem_cons.mp (hdefines hshort)
          refine ih (h.define ⟨fun _ => rfl, ?_, ?_⟩ hfirst) (fun hshort => (hparts hshort).2)
            hdefine
          · rintro hshort _ ⟨⟩
            exact (hparts hshort).1
          · rintro _ _ ⟨⟩

/-- The names are checked or refused. -/
theorem confined_checkNames {width : Width} (hnarrow : Short → width.IsNarrow)
    (statements : List Statement) {table : SymbolTable} (h : table.Founded Short width) :
    Confined (Fault.IsRefusal Short) (fun _ => SymbolTable.Founded Short width)
      (checkNames statements) table := by
  obtain ⟨mentioned, hnoted⟩ := noteMentions_eq table statements
  refine .change (.read ?_)
  rw [hnoted]
  have hfounded : { table with mentioned }.Founded Short width :=
    ⟨h.width_eq, h.unbound, h.symbols, h.entered, h.fits, h.nodup⟩
  refine Confined.bind (.lift (fun _ _ => hfounded) (SymbolTable.within_checkMentions _))
    fun _ s hs => .read (SymbolTable.confined_resolveEach hnarrow _ hs)

/-- A width of at least two bits is accepted. -/
theorem within_arithmetic (h : 2 ≤ config.cellBits) :
    Fault.Within (Fault.IsRefusal Short) (arithmetic config) := by
  unfold arithmetic Width.ofInt?
  rw [dif_pos (by omega)]
  exact Fault.within_ok _

/-- The expressions of a body that can be written. -/
theorem has_of_isWritable {item : Item} (h : item.body.isWritable = true) :
    item.Has fun e => e.isWritable = true := by
  intro pair hpair
  unfold expressions at hpair
  -- the expressions of an item are those of its operands or of its values
  cases hbody : item.body with
  | operation op =>
      rw [hbody] at h hpair
      obtain ⟨operand, hmem, heq⟩ := List.mem_filterMap.mp hpair
      obtain ⟨e, he, rfl⟩ := Option.map_eq_some_iff.mp heq
      have hoperand : operand.access.isWritable = true := List.all_eq_true.mp h operand hmem
      cases haccess : operand.access with
      | immediate _ | memory _ =>
          rw [haccess] at he hoperand
          obtain rfl := Option.some.inj he
          exact hoperand
      | temp _ =>
          rw [haccess] at he
          cases he
  | data size values =>
      rw [hbody] at h hpair
      obtain ⟨datum, hmem, heq⟩ := List.mem_filterMap.mp hpair
      have hdatum : datum.isWritable = true := List.all_eq_true.mp h datum hmem
      cases datum with
      | value e =>
          obtain rfl := Option.some.inj heq
          exact hdatum
      | text _ => cases heq
  | reserve size count =>
      rw [hbody] at h hpair
      obtain rfl := List.mem_singleton.mp hpair
      exact h

/-- All stages together: the last one is the only one that has to know more than that the tables are
founded. -/
theorem confined_ofStatements {statements : List Statement}
    (hparse : Statement.parse source file = .ok statements) (hbits : 2 ≤ config.cellBits)
    (reports : List Progress) :
    Confined (Fault.IsRefusal (IsShort config defines source file)) (fun _ _ => True)
      (ofStatements config defines statements) reports := by
  refine .given (within_arithmetic hbits) fun arith harith => ?_
  refine .given (within_definePredefined _ _) fun predefined hpredefined => ?_
  have hnarrow : IsShort config defines source file → arith.width.IsNarrow := by
    intro hshort
    have hwidth := Width.bits_of_ofInt? (ofInt?_of_arithmetic harith)
    have hlimit := hshort.bits
    unfold Width.IsNarrow
    omega
  have hfounded : predefined.Founded (IsShort config defines source file) arith.width :=
    founded_definePredefined (.empty arith) (fun hshort => hshort.defines) hpredefined
  have hresolve := Layout.confined_resolve hnarrow (fun hshort => hshort.size) config.entryJump
    (fun hshort => hshort.statements hparse) hfounded
  refine (confined_stage hresolve _).seq ?_
  rintro ⟨layout, placed⟩ _ hplaced hlayout
  rw [yields_stage] at hplaced
  have hcheck := confined_checkNames hnarrow statements hlayout.1
  refine .change ((confined_stage hcheck _).seq ?_)
  rintro ⟨_, checked⟩ _ hchecked hfounded
  rw [yields_stage] at hchecked
  have hexpand := Item.confined_contents (SymbolTable.discipline_founded hnarrow)
    (fun item hmem => fun pair hpair hshort =>
      has_of_isWritable ((hlayout.2 hshort).2 item hmem).2 pair hpair)
    (fun hshort item hmem => ((hlayout.2 hshort).2 item hmem).1) hfounded
  refine (confined_stage hexpand _).seq ?_
  rintro ⟨contents, expanded⟩ _ hexpanded hlistable
  rw [yields_stage] at hexpanded
  have hstore : Confined (Fault.IsRefusal (IsShort config defines source file)) (fun _ _ => True)
      (Layout.placeStorage (Layout.sizeLimit arith.width config.maxImageSize))
      (layout, expanded) := by
    refine Layout.confined_placeStorage Fault.allowsOthers_isRefusal ?_ ?_ ?_
    · exact fun hshort => (hnarrow hshort).isWritable_sizeLimit hshort.size
    · intro hshort literal hliteral
      have hfits := hlistable.1.fits literal.value (List.mem_map_of_mem hliteral)
      exact (hnarrow hshort).isWritable hfits.bounds
    · intro hshort
      have hlength := hlistable.1.length_values_le
      rw [Pool.values, List.length_map] at hlength
      exact (hnarrow hshort).isWritable_storage (hlayout.2 hshort).1 hlength
  refine .change ((confined_stage hstore _).seq ?_)
  rintro ⟨size, stored⟩ _ hstored -
  refine .change ?_
  rw [yields_stage] at hstored
  -- the stages so far determine an image
  let P : Prepared config defines source file :=
    ⟨statements, arith, layout, contents, size, predefined, placed, checked, expanded, stored,
      hparse, harith, hpredefined, hplaced.1, hchecked.1, hexpanded.1, hstored.1⟩
  have hbuild := P.confined_buildImage Fault.allowsOthers_isRefusal hlistable.2
  exact (confined_stage hbuild _).bind fun _ _ _ => trivial

end Short

/-- The result of an assembly is that of its stages, with the source quoted in a fault. -/
theorem assemble_eq_error {config : Config} {defines : Defines} {source file : String}
    {fault : Fault} :
    assemble config defines source file = .error fault ↔
      ∃ found reports, (ofSource config defines source file).run [] = (.error found, reports) ∧
        quoteFault source file found = fault := by
  unfold assemble run
  rcases (ofSource config defines source file).run [] with ⟨found | image, reports⟩
  · constructor
    · intro h
      exact ⟨found, reports, rfl, Except.error.inj h⟩
    · rintro ⟨_, _, heq, rfl⟩
      cases heq
      rfl
  · constructor
    · intro h
      cases h
    · rintro ⟨_, _, heq, -⟩
      cases heq

/-- A source is refused by its reading, or by what comes after that. -/
theorem ofSource_eq_error {config : Config} {defines : Defines} {source file : String}
    {found : Fault} {reports last : List Progress}
    (h : (ofSource config defines source file).run reports = (.error found, last)) :
    Statement.parse source file = .error found ∨
      ∃ statements reports' last', Statement.parse source file = .ok statements ∧
        (ofStatements config defines statements).run reports' = (.error found, last') := by
  rw [ofSource] at h
  -- the source is not read, or what is read is not assembled
  cases hparse : Statement.parse source file with
  | error fault =>
      rw [hparse] at h
      cases h
      exact .inl rfl
  | ok statements =>
      rw [hparse] at h
      replace h : (ofStatements config defines statements >>= _ : Reporting Image).run
        (reports ++ [.parsed statements.length]) = (.error found, last) := h
      rw [run_bind] at h
      rcases hrun : (ofStatements config defines statements).run
        (reports ++ [.parsed statements.length]) with ⟨fault | image, last'⟩
      · rw [hrun] at h
        obtain rfl := Except.error.inj (Prod.ext_iff.mp h).1
        exact .inr ⟨statements, _, last', rfl, hrun⟩
      · rw [hrun] at h
        cases h

end Assembly

namespace Assembly

variable {config : Config} {defines : Defines} {source file : String}

end Assembly

end Subleq
