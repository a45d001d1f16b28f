import Subleq.Assembly
import Subleq.Proofs.Layout

/-!
# Literals and their cells

The pool is seen through its values in order.  Using a value appends it if it is new (`Pool.enter`),
so after a sequence of uses the values are those of the sequence without repetitions, in the order
of their first uses (`Pool.foldl_enter`).

`SymbolTable.Pooled` ties the pool to the table: every pooled value has a symbol of its own, which
has no value before the pool is placed.  Expansion keeps that (`SymbolTable.Interns`), and so the
addresses that placing the pool gives to these symbols change no value that anything was computed
from.
-/

namespace Subleq

open Folding

theorem OrderedMap.mem_of_get? {α β : Type} [BEq α] [LawfulBEq α] {map : OrderedMap α β} {key : α}
    {value : β} (h : get? map key = some value) : (key, value) ∈ map := by
  obtain ⟨before, after, rfl, -⟩ := List.lookup_eq_some_iff.mp h
  simp

/-! ## Values of the pool -/

namespace Pool

/-- The values of a pool after a use of a value. -/
def enter (values : List Int) (value : Int) : List Int :=
  if value ∈ values then values else values ++ [value]

/-- Entering values one after the other leaves the first of equal ones. -/
theorem foldl_enter (before uses : List Int) :
    uses.foldl enter before.eraseDups = (before ++ uses).eraseDups := by
  induction uses generalizing before with
  | nil => rw [List.foldl_nil, List.append_nil]
  | cons value rest ih =>
      have henter : enter before.eraseDups value = (before ++ [value]).eraseDups := by
        rw [enter, List.eraseDups_append]
        by_cases h : value ∈ before <;> simp [h, List.removeAll, List.eraseDups_cons]
      rw [List.foldl_cons, henter, ih, List.append_assoc, List.singleton_append]

/-- Values are entered once each, in the order of their first uses. -/
theorem foldl_enter_nil (uses : List Int) : uses.foldl enter [] = uses.eraseDups := by
  simpa using foldl_enter [] uses

/-- A use enters a value that is not there yet. -/
theorem values_use (value : Int) (literals : List Literal) :
    (use value literals).map Literal.value = enter (literals.map Literal.value) value := by
  induction literals with
  | nil => rfl
  | cons first rest ih =>
      rw [use]
      by_cases h : first.value = value
      · rw [if_pos h, enter, if_pos (by simp [h])]
        rfl
      · rw [if_neg h, List.map_cons, ih, enter, enter, List.map_cons]
        have hne : value ≠ first.value := fun heq => h heq.symm
        by_cases hmem : value ∈ rest.map Literal.value
        · rw [if_pos hmem, if_pos (List.mem_cons_of_mem _ hmem)]
        · rw [if_neg hmem, if_neg (by simpa [hne] using hmem), List.cons_append]

theorem values_intern (pool : Pool) (value : Int) :
    (pool.intern value).values = enter pool.values value := values_use value pool.literals

/-- A pool has the values that it lists. -/
theorem contains_iff {pool : Pool} {value : Int} :
    pool.contains value = true ↔ value ∈ pool.values := by
  rw [contains, List.contains_iff_mem]

/-! ## Places -/

/-- Values with consecutive addresses. -/
def located : (address : Int) → List Int → List (Int × Int)
  | _, [] => []
  | address, value :: rest => (value, address) :: located (address + 1) rest

theorem values_assign (address : Int) (literals : List Literal) :
    (assign address literals).map Literal.value = literals.map Literal.value := by
  induction literals generalizing address with
  | nil => rfl
  | cons first rest ih => rw [assign, List.map_cons, List.map_cons, ih]

/-- A placed pool has its values at consecutive addresses. -/
theorem poolCells_place (pool : Pool) (base : Int) :
    Assembly.poolCells (pool.place base) = located base pool.values := by
  rw [Assembly.poolCells, place, values]
  induction pool.literals generalizing base with
  | nil => rfl
  | cons first rest ih =>
      rw [assign, List.filterMap_cons, List.map_cons, located, ← ih (base + 1)]
      rfl

/-- The first literal with a value is the first pair with it. -/
theorem lookup_filterMap_address {literals : List Literal} {literal : Literal} {value address : Int}
    (hplaced : ∀ literal ∈ literals, literal.address.isSome)
    (hfind : literals.find? (·.value == value) = some literal)
    (haddress : literal.address = some address) :
    List.lookup value (literals.filterMap fun literal => literal.address.map (literal.value, ·)) =
      some address := by
  induction literals with
  | nil => cases hfind
  | cons first rest ih =>
      obtain ⟨place, hplace⟩ := Option.isSome_iff_exists.mp (hplaced first (by simp))
      rw [List.filterMap_cons, hplace, Option.map_some, List.lookup_cons]
      rw [List.find?_cons] at hfind
      by_cases heq : first.value = value
      · rw [heq, beq_self_eq_true] at hfind ⊢
        obtain rfl := Option.some.inj hfind
        exact hplace.symm.trans haddress
      · rw [beq_eq_false_iff_ne.mpr heq] at hfind
        rw [beq_eq_false_iff_ne.mpr (Ne.symm heq)]
        exact ih (fun literal hmem => hplaced literal (List.mem_cons_of_mem _ hmem)) hfind

/-- Once addresses are given every literal has one. -/
theorem isSome_address_of_assign {literals : List Literal} {base : Int} {literal : Literal}
    (h : literal ∈ assign base literals) : literal.address.isSome := by
  induction literals generalizing base with
  | nil => cases h
  | cons first rest ih =>
      rw [assign] at h
      rcases List.mem_cons.mp h with rfl | h
      · rfl
      · exact ih h

/-- The cell of a value of a placed pool is where the listing of the pool has it. -/
theorem get?_of_addressOf {pool : Pool} {base value address : Int}
    (h : (pool.place base).addressOf value = .ok address) :
    OrderedMap.get? (located base pool.values) value = some address := by
  rw [addressOf] at h
  split at h
  · next found hfound =>
    obtain rfl := Except.ok.inj h
    obtain ⟨literal, hfind, haddress⟩ := Option.bind_eq_some_iff.mp hfound
    rw [← poolCells_place]
    exact lookup_filterMap_address (fun _ hmem => isSome_address_of_assign hmem) hfind haddress
  · cases h

/-- Locating values does not change them. -/
theorem map_fst_located (base : Int) (values : List Int) :
    (located base values).map Prod.fst = values := by
  induction values generalizing base with
  | nil => rfl
  | cons first rest ih => rw [located, List.map_cons, ih]

/-- The located values stand at the addresses from the first one on. -/
theorem exists_index_of_mem_located {values : List Int} {base value address : Int}
    (h : (value, address) ∈ located base values) :
    ∃ index : Nat, address = base + index ∧ values[index]? = some value := by
  induction values generalizing base with
  | nil => cases h
  | cons first rest ih =>
      rcases List.mem_cons.mp h with heq | h
      · cases heq
        exact ⟨0, by simp, rfl⟩
      · obtain ⟨index, haddress, hvalue⟩ := ih h
        exact ⟨index + 1, by push_cast; omega, hvalue⟩

end Pool

namespace SymbolTable

variable {width : Width} {range : ValueRange width} {table table' table'' : SymbolTable}

/-! ## Pool and table -/

/-- Every pooled value fits into a cell and has a symbol of its own, which has no value yet. -/
structure Pooled (width : Width) (table : SymbolTable) : Prop where
  entered : ∀ value ∈ table.pool.values, ∃ symbol, table.find? (literalName value) = some symbol ∧
    symbol.kind = .literal ∧ symbol.value = none
  nodup : (table.pool.values.map literalName).Nodup
  fits : ∀ value ∈ table.pool.values, width.Fits value

/-- Nothing has been used before the second pass. -/
theorem Pooled.of_empty (h : table.pool = Pool.empty) : Pooled width table := by
  have hvalues : table.pool.values = [] := by rw [h]; rfl
  refine ⟨?_, ?_, ?_⟩ <;> rw [hvalues] <;> simp

/-- Only the values and their symbols matter. -/
theorem Pooled.of_values (h : Pooled width table)
    (hvalues : table'.pool.values = table.pool.values)
    (hfind : ∀ {name symbol}, table.find? name = some symbol → symbol.kind = .literal →
      table'.find? name = some symbol) : Pooled width table' := by
  refine ⟨fun value hmem => ?_, ?_, ?_⟩
  · rw [hvalues] at hmem
    obtain ⟨symbol, hsymbol, hkind, hnone⟩ := h.entered value hmem
    exact ⟨symbol, hfind hsymbol hkind, hkind, hnone⟩
  · rw [hvalues]
    exact h.nodup
  · rw [hvalues]
    exact h.fits

/-- Folding constants does not touch the symbols of literals. -/
theorem Pooled.folds (h : Pooled width table) (hfolds : Folds table table') :
    Pooled width table' :=
  h.of_values (by rw [hfolds.pool_eq]) fun hsymbol hkind =>
    hfolds.find_of_ne_constant hsymbol (by rw [hkind]; decide)

/-- A new value comes with a new symbol. -/
theorem Pooled.enter {value : Int} (h : Pooled width table) (hfits : width.Fits value)
    (hvalues : table'.pool.values = table.pool.values ++ [value])
    (hnew : table.find? (literalName value) = none)
    (hfind : ∀ name, table'.find? name = if name = literalName value then
      some ⟨literalName value, .literal, none, none, none⟩ else table.find? name) :
    Pooled width table' := by
  -- the name of the new literal is none of those that the table has
  have hne : ∀ other ∈ table.pool.values, literalName other ≠ literalName value := by
    intro other hmem heq
    obtain ⟨symbol, hsymbol, -⟩ := h.entered other hmem
    rw [heq, hnew] at hsymbol
    cases hsymbol
  refine ⟨fun other hmem => ?_, ?_, fun other hmem => ?_⟩
  · rw [hvalues, List.mem_append, List.mem_singleton] at hmem
    rw [hfind]
    rcases hmem with hmem | rfl
    · rw [if_neg (hne other hmem)]
      exact h.entered other hmem
    · exact ⟨_, if_pos rfl, rfl, rfl⟩
  · rw [hvalues, List.map_append, List.map_singleton, List.nodup_append_comm,
      List.singleton_append, List.nodup_cons]
    refine ⟨fun hname => ?_, h.nodup⟩
    obtain ⟨other, hmem, heq⟩ := List.mem_map.mp hname
    exact hne other hmem heq
  · rw [hvalues, List.mem_append, List.mem_singleton] at hmem
    rcases hmem with hmem | rfl
    · exact h.fits other hmem
    · exact hfits

/-- What a part of the second pass does to a table, if `uses` are the literals that it uses, each
brought into a cell. -/
structure Interns (range : ValueRange width) (uses : List Int) (table table' : SymbolTable) :
    Prop where
  sound : Sound range table'
  pooled : Pooled width table'
  toExtends : Extends table table'
  values_eq : table'.pool.values = uses.foldl Pool.enter table.pool.values

namespace Interns

/-- Nothing is pooled by doing nothing. -/
theorem refl (hsound : Sound range table) (hpooled : Pooled width table) :
    Interns range [] table table := ⟨hsound, hpooled, Extends.refl _, rfl⟩

/-- Uses one after the other are counted together. -/
theorem trans {uses uses' : List Int} (h : Interns range uses table table')
    (h' : Interns range uses' table' table'') : Interns range (uses ++ uses') table table'' :=
  ⟨h'.sound, h'.pooled, h.toExtends.trans h'.toExtends,
    by rw [h'.values_eq, h.values_eq, List.foldl_append]⟩

theorem of_folds (hsound : Sound range table') (hpooled : Pooled width table)
    (h : Folds table table') : Interns range [] table table' :=
  ⟨hsound, hpooled.folds h, h.toExtends, by rw [h.pool_eq, List.foldl_nil]⟩

end Interns

/-- A literal is entered if it has a name, and that name is new. -/
theorem defineLiteral_eq_ok {value : Int} :
    table.defineLiteral value = .ok table' ↔ Digits.isWritable value = true ∧
      table.define ⟨literalName value, .literal, none, none, none⟩ = .ok table' := by
  rw [defineLiteral]
  split_ifs with hwritable
  · exact ⟨fun h => ⟨hwritable, h⟩, And.right⟩
  · exact ⟨fun h => (by cases h), fun h => absurd h.1 hwritable⟩

/-- Placing the pool gives it its place in any case. -/
theorem run_place (table : SymbolTable) (base : Int) :
    (place base).run table = (table.poolEnd base, table.placePool base) := by
  rw [place, run_read]
  cases table.poolEnd base <;> rfl

/-- The end of the pool is known if all its literals can be named. -/
theorem poolEnd_eq_ok {base address : Int} :
    table.poolEnd base = .ok address ↔ (∀ literal ∈ table.pool.literals, literal.isWritable = true) ∧
      table.pool.endAddress base = address := by
  rw [poolEnd, ← List.all_eq_true]
  split_ifs with hwritable
  · exact ⟨fun h => ⟨hwritable, Except.ok.inj h⟩, fun h => congrArg Except.ok h.2⟩
  · exact ⟨fun h => (by cases h), fun h => absurd h.1 hwritable⟩

/-- A literal is counted in the pool, and entered among the symbols if it is new. -/
theorem yields_intern {value : Int} {literal : Literal}
    (h : Yields (intern value) table literal table') :
    ∃ counted, counted = { table with pool := table.pool.intern (table.arith.width.wrap value) } ∧
      if table.arith.width.wrap value ∈ table.pool.values then table' = counted
      else counted.define ⟨literalName (table.arith.width.wrap value), .literal, none, none, none⟩ =
        .ok table' := by
  simp only [intern, yields_bind, yields_get, yields_liftM, yields_set] at h
  obtain ⟨table, _, ⟨rfl, rfl⟩, cell, _, ⟨hcell, rfl⟩, _, _, rfl, h⟩ := h
  obtain rfl := Arithmetic.eq_wrap_of_toCell hcell
  refine ⟨_, rfl, ?_⟩
  -- a value that is pooled already is only counted
  by_cases hmem : table.arith.width.wrap value ∈ table.pool.values
  · rw [if_pos hmem]
    rw [if_neg (by simpa [Pool.contains_iff] using hmem)] at h
    simp only [yields_bind, yields_get, yields_pure] at h
    obtain ⟨_, _, ⟨-, rfl⟩, -, rfl⟩ := h
    rfl
  · rw [if_neg hmem]
    have hnew : table.pool.contains (table.arith.width.wrap value) = false := by
      rwa [Bool.eq_false_iff, Ne, Pool.contains_iff]
    rw [if_pos (by rw [hnew]; rfl)] at h
    simp only [yields_bind, yields_update, yields_get, yields_pure] at h
    obtain ⟨_, _, hdefine, _, _, ⟨-, rfl⟩, -, rfl⟩ := h
    exact (defineLiteral_eq_ok.mp hdefine).2

/-- A literal that is pooled counts as a use of its wrapped value. -/
theorem intern_sound {value : Int} {literal : Literal} (hsound : Sound range table)
    (hpooled : Pooled width table) (h : Yields (intern value) table literal table') :
    Interns range [width.wrap value] table table' := by
  obtain ⟨counted, hcounted, h⟩ := yields_intern h
  rw [hsound.width_eq] at h hcounted
  have hvalues : counted.pool.values = Pool.enter table.pool.values (width.wrap value) := by
    rw [hcounted]
    exact Pool.values_intern _ _
  have hsound₁ : Sound range counted := by
    rw [hcounted]
    exact hsound.of_symbols rfl rfl rfl
  have hextends₁ : Extends table counted := by
    rw [hcounted]
    exact Extends.of_symbols rfl rfl
  have hfind₁ : ∀ name, counted.find? name = table.find? name := by
    intro name
    rw [hcounted]
    rfl
  by_cases hmem : width.wrap value ∈ table.pool.values
  · -- a value that was used before is only counted
    rw [if_pos hmem] at h
    subst h
    have hsame : table'.pool.values = table.pool.values := by rw [hvalues, Pool.enter, if_pos hmem]
    exact ⟨hsound₁, hpooled.of_values hsame fun hsymbol _ => (hfind₁ _).trans hsymbol, hextends₁,
      hvalues⟩
  · rw [if_neg hmem] at h
    have hgrows : Grows range counted table' :=
      .define hsound₁ h (fun _ hv => by cases hv) (fun hkind => by cases hkind)
    have hpool : table'.pool.values = Pool.enter table.pool.values (width.wrap value) := by
      rw [hgrows.pool_eq, hvalues]
    have hnew : table.find? (literalName (width.wrap value)) = none := by
      rw [← hfind₁]
      exact (define_eq_ok.mp h).1
    have hpooled' : Pooled width table' := by
      refine hpooled.enter (width.fits_wrap value) ?_ hnew fun name => ?_
      · rw [hpool, Pool.enter, if_neg hmem]
      · rw [find?_define h, hfind₁]
    exact ⟨hgrows.sound, hpooled', hextends₁.trans hgrows.toExtends, hpool⟩

/-! ## Placing the storage -/

/-- Giving addresses to the symbols of literals changes no other symbol. -/
theorem settle_sound {literals : List Literal} (hsound : Sound range table)
    (hentered : ∀ literal ∈ literals, ∃ symbol, table.find? literal.name = some symbol ∧
      symbol.kind = .literal ∧ symbol.value = none)
    (hnodup : (literals.map Literal.name).Nodup)
    (hholds : ∀ literal ∈ literals, ∀ address, literal.address = some address →
      range.Holds .literal address) :
    Grows range table (table.settle literals) := by
  induction literals generalizing table with
  | nil => exact .refl hsound
  | cons first rest ih =>
      rw [List.map_cons, List.nodup_cons] at hnodup
      have hrest : ∀ literal ∈ rest, ∀ address, literal.address = some address →
          range.Holds .literal address :=
        fun literal hmem => hholds literal (List.mem_cons_of_mem _ hmem)
      rw [settle]
      split_ifs
      on_goal 2 => exact .refl hsound
      split
      · next address haddress =>
        obtain ⟨symbol, hfind, hkind, hnone⟩ := hentered first (by simp)
        have hset : Grows range table (table.setValue first.name address) := by
          refine ⟨hsound.setValue hfind hnone ?_ ?_, Extends.setValue ?_, rfl⟩
          · rw [hkind]
            exact hholds first (by simp) address haddress
          · intro definition hconstant
            rw [hkind] at hconstant
            cases hconstant
          · rw [value?_of_find? hfind, hnone]
        refine hset.trans (ih hset.sound (fun literal hmem => ?_) hnodup.2 hrest)
        -- the names differ, so the others are as they were
        have hne : literal.name ≠ first.name := fun heq =>
          hnodup.1 (heq ▸ List.mem_map_of_mem hmem)
        rw [find?_setValue, if_neg hne]
        exact hentered literal (List.mem_cons_of_mem _ hmem)
      · exact ih hsound (fun literal hmem => hentered literal (List.mem_cons_of_mem _ hmem))
          hnodup.2 hrest

/-- Placing the pool extends the table. -/
theorem placePool_sound {base : Int} (hsound : Sound range table) (hpooled : Pooled width table)
    (hholds : ∀ address, base ≤ address → address < base + table.pool.values.length →
      range.Holds .literal address) :
    Sound range (table.placePool base) ∧ Extends table (table.placePool base) ∧
      (table.placePool base).pool = table.pool.place base := by
  have hnames : (table.pool.place base).literals.map Literal.name =
      table.pool.values.map literalName := by
    rw [Pool.values, ← Pool.values_assign base, List.map_map]
    rfl
  -- placing gives addresses to the literals and leaves their values
  have hvalues : ∀ literal ∈ (table.pool.place base).literals,
      literal.value ∈ table.pool.values := by
    intro literal hmem
    rw [Pool.values, ← Pool.values_assign base]
    exact List.mem_map_of_mem hmem
  -- every literal has its symbol, so the addresses are stored there
  have hsettle : Grows range { table with pool := table.pool.place base }
      (table.placePool base) := by
    refine settle_sound (hsound.of_symbols rfl rfl rfl)
      (fun literal hmem => hpooled.entered literal.value (hvalues literal hmem)) ?_ ?_
    · rw [hnames]
      exact hpooled.nodup
    · intro literal hmem address haddress
      have hlocated : (literal.value, address) ∈ Pool.located base table.pool.values := by
        rw [← Pool.poolCells_place]
        exact List.mem_filterMap.mpr ⟨literal, hmem, by rw [haddress]; rfl⟩
      obtain ⟨index, rfl, hvalue⟩ := Pool.exists_index_of_mem_located hlocated
      have hindex := (List.getElem?_eq_some_iff.mp hvalue).1
      exact hholds _ (by omega) (by omega)
  have hplaced : Extends table { table with pool := table.pool.place base } :=
    .of_symbols rfl rfl
  exact ⟨hsettle.sound, hplaced.trans hsettle.toExtends, hsettle.pool_eq⟩

end SymbolTable

namespace Layout

variable {width : Width} {range : ValueRange width} {layout layout' : Layout}
  {table table' : SymbolTable}

/-- The temp fields are defined one after the other, with an address each. -/
theorem defineTemps_sound {temps : List Temp} {address : Int} {u : Unit}
    (hholds : ∀ cell, address ≤ cell → cell < address + temps.length → range.Holds .temp cell)
    (hsound : SymbolTable.Sound range table)
    (h : Yields (defineTemps address temps) (layout, table) u (layout', table')) :
    SymbolTable.Grows range table table' ∧
      ∀ pair ∈ Assembly.tempCells address temps, table'.value? pair.1 = some pair.2 := by
  induction temps generalizing address layout table with
  | nil =>
      obtain ⟨-, heq⟩ := yields_pure.mp h
      cases heq
      exact ⟨.refl hsound, by simp [Assembly.tempCells]⟩
  | cons first rest ih =>
      simp only [defineTemps, yields_bind, yields_update] at h
      obtain ⟨_, ⟨layout₁, table₁⟩, hdefine, h⟩ := h
      cases hfirst : table.defineTemp first.name address with
      | error fault =>
          rw [hfirst] at hdefine
          cases hdefine
      | ok defined =>
          rw [hfirst] at hdefine
          cases hdefine
          have hgrows₁ : SymbolTable.Grows range table table₁ := by
            refine .define hsound hfirst (fun value hv => ?_) (fun hkind => by cases hkind)
            obtain rfl := Option.some.inj hv
            exact hholds address le_rfl (by rw [List.length_cons]; push_cast; omega)
          -- the cell after this one belongs to the next temp field
          have hrest : ∀ cell, address + 1 ≤ cell → cell < address + 1 + rest.length →
              range.Holds .temp cell := by
            intro cell hlow hhigh
            exact hholds cell (by omega) (by rw [List.length_cons]; push_cast; omega)
          obtain ⟨hgrows, hvalues⟩ := ih hrest hgrows₁.sound h
          refine ⟨hgrows₁.trans hgrows, fun pair hmem => ?_⟩
          rcases List.mem_cons.mp hmem with rfl | hmem
          · refine hgrows.toExtends.le _ _ ?_
            rw [SymbolTable.value?, SymbolTable.find?_define hfirst, if_pos rfl]
            rfl
          · exact hvalues pair hmem

/-- The parts of placing the storage: the pool stands after the items, the temp fields stand after
the pool, and all of it is within the limit. -/
theorem yields_placeStorage {limit size : Int}
    (h : Yields (placeStorage limit) (layout, table) size (layout', table')) :
    ∃ layout₁ layout₂ : Layout,
      Yields (defineTemps (layout.itemsEnd + table.pool.values.length) Temp.all)
        (layout₁, table.placePool layout.itemsEnd) () (layout₂, table') ∧
      size = layout.itemsEnd + table.pool.values.length + Temp.all.length ∧ size ≤ limit := by
  simp only [placeStorage, SymbolTable.run_place, yields_bind, yields_get, yields_set,
    yields_modify, yields_liftM, yields_pure] at h
  obtain ⟨_, _, ⟨rfl, rfl⟩, _, _, rfl, _, _, ⟨hplaced, rfl⟩, _, _, rfl, _, ⟨layout₁, table₁⟩,
    hdefine, _, _, heq, _, _, ⟨hcheck, rfl⟩, rfl, heq'⟩ := h
  obtain ⟨-, rfl⟩ := SymbolTable.poolEnd_eq_ok.mp hplaced
  rw [← heq] at heq'
  cases heq'
  have hlength : table.pool.values.length = table.pool.literals.length := List.length_map _
  rw [hlength]
  exact ⟨_, layout₁, hdefine, rfl, le_of_checkSize hcheck⟩

/-- Placing the storage extends the table, with the values of the temp fields. -/
theorem placeStorage_sound {limit size : Int}
    (hpool : ∀ address, (layout.itemsEnd : Int) ≤ address →
      address < layout.itemsEnd + table.pool.values.length → range.Holds .literal address)
    (htemps : ∀ address, (layout.itemsEnd : Int) + table.pool.values.length ≤ address →
      address < size → range.Holds .temp address)
    (hsound : SymbolTable.Sound range table) (hpooled : SymbolTable.Pooled width table)
    (h : Yields (placeStorage limit) (layout, table) size (layout', table')) :
    SymbolTable.Sound range table' ∧ SymbolTable.Extends table table' ∧
      table'.pool = table.pool.place layout.itemsEnd ∧
      ∀ pair ∈ Assembly.tempCells (size - Temp.all.length) Temp.all,
        table'.value? pair.1 = some pair.2 := by
  obtain ⟨layout₁, layout₂, hdefine, rfl, -⟩ := yields_placeStorage h
  obtain ⟨hsound₁, hextends₁, hpool₁⟩ := SymbolTable.placePool_sound hsound hpooled hpool
  obtain ⟨hgrows, hvalues⟩ := defineTemps_sound htemps hsound₁ hdefine
  refine ⟨hgrows.sound, hextends₁.trans hgrows.toExtends, hgrows.pool_eq.trans hpool₁, ?_⟩
  rw [add_sub_cancel_right]
  exact hvalues

end Layout

end Subleq
