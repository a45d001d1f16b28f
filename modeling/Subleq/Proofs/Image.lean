import Subleq.Proofs.Expansion

/-!
# Rows and memory

The rows of a listing tile the image: every row starts where the one before it ends (`Row.Tile`).
Writing such rows into a memory one after the other puts their cells one after the other
(`Assembly.toList_memory`), so the memory can be read off the listing.

The rows of an item hold the cells that its contents stand for (`Item.Listed`).  Resolving the slots
of the contents folds nothing any more, since the pool and the temp fields have their places by
then.
-/

namespace Subleq

open Folding

/-! ## Rows that follow one another -/

namespace Row

/-- The rows follow one another from an address on. -/
def Tile : (address : Int) → List Row → Prop
  | _, [] => True
  | address, row :: rest => row.address = address ∧ Tile (address + row.cells.length) rest

namespace Tile

variable {address : Int} {rows others : List Row}

/-- Rows that start where others end tile the rest. -/
theorem append (h : Tile address rows)
    (hothers : Tile (address + (rows.flatMap Row.cells).length) others) :
    Tile address (rows ++ others) := by
  induction rows generalizing address with
  | nil => simpa using hothers
  | cons row rest ih =>
      refine ⟨h.1, ih h.2 ?_⟩
      rw [List.flatMap_cons, List.length_append] at hothers
      push_cast at hothers
      rwa [add_assoc]

/-- The address of a row is the first one plus the number of cells in the rows before it. -/
theorem address_eq {before after : List Row} {row : Row}
    (h : Tile address (before ++ row :: after)) :
    row.address = address + (before.flatMap Row.cells).length := by
  induction before generalizing address with
  | nil => simpa using h.1
  | cons first rest ih =>
      rw [ih h.2, List.flatMap_cons, List.length_append]
      push_cast
      ring

/-- Every row is among the cells of all rows. -/
theorem bounds {row : Row} (h : Tile 0 rows) (hmem : row ∈ rows) :
    0 ≤ row.address ∧ row.address + row.cells.length ≤ (rows.flatMap Row.cells).length := by
  obtain ⟨before, after, rfl⟩ := List.append_of_mem hmem
  rw [h.address_eq, List.flatMap_append, List.flatMap_cons]
  simp only [List.length_append]
  push_cast
  omega

end Tile

end Row

namespace Assembly

/-! ## Memory -/

/-- Writing values into consecutive cells replaces what was there. -/
theorem toList_store {cells : Array Int} {address : Nat} {values : List Int}
    (h : address + values.length ≤ cells.size) :
    (store cells address values).toList =
      cells.toList.take address ++ values ++ cells.toList.drop (address + values.length) := by
  induction values generalizing cells address with
  | nil => simp [store]
  | cons value rest ih =>
      rw [List.length_cons] at h
      have hlength : address < cells.toList.length := by
        rw [Array.length_toList]
        omega
      -- the first value is put behind what stays in front
      have htake : (cells.toList.set address value).take (address + 1) =
          cells.toList.take address ++ [value] := by
        rw [List.take_succ_eq_append_getElem (by simpa using hlength), List.take_set_of_le le_rfl,
          List.getElem_set_self]
      rw [store, ih (by rw [Array.size_setIfInBounds]; omega), Array.toList_setIfInBounds, htake,
        List.drop_set_of_lt (by omega), List.length_cons]
      simp [Nat.add_assoc, Nat.add_comm 1]

/-- Writing rows that follow one another puts their cells one after the other. -/
theorem toList_foldl_store {rows : List Row} {cells : Array Int} {address : Nat}
    (htile : Row.Tile address rows)
    (hsize : address + (rows.flatMap Row.cells).length ≤ cells.size) :
    (rows.foldl (fun cells row => store cells row.address.toNat row.cells) cells).toList =
      cells.toList.take address ++ rows.flatMap Row.cells ++
        cells.toList.drop (address + (rows.flatMap Row.cells).length) := by
  induction rows generalizing cells address with
  | nil => simp
  | cons row rest ih =>
      obtain ⟨haddress, hrest⟩ := htile
      rw [List.flatMap_cons, List.length_append] at hsize
      have hstore : (store cells address row.cells).toList = _ := toList_store (by omega)
      -- the cells up to the end of the row are final when the others are stored
      have hlength : (cells.toList.take address ++ row.cells).length =
          address + row.cells.length := by
        rw [List.length_append, List.length_take, Array.length_toList]
        omega
      -- storing does not change the number of cells
      have hstored : (store cells address row.cells).size = cells.size := by
        rw [← Array.length_toList, hstore, List.length_append, hlength, List.length_drop,
          Array.length_toList]
        omega
      rw [List.foldl_cons, haddress, Int.toNat_natCast, ih (by exact_mod_cast hrest) (by omega),
        hstore, List.take_left' hlength, ← List.drop_drop, List.drop_left' hlength, List.drop_drop,
        List.flatMap_cons, List.length_append]
      simp [Nat.add_assoc]

/-- The cells of a memory that rows tile are those of the rows. -/
theorem toList_memory {rows : List Row} {size : Nat} (htile : Row.Tile 0 rows)
    (hsize : (rows.flatMap Row.cells).length = size) :
    (memory size rows).toList = rows.flatMap Row.cells := by
  have htile' : Row.Tile ((0 : Nat) : Int) rows := htile
  rw [memory, toList_foldl_store htile' (by rw [Array.size_replicate]; omega)]
  simp [hsize]

/-! ## Rows of storage -/

/-- The cells of the literals are their values. -/
theorem cells_literalRows (values : List Int) (base : Int) :
    ((Pool.located base values).map fun pair => literalRow pair.1 pair.2).flatMap Row.cells =
      values := by
  induction values generalizing base with
  | nil => rfl
  | cons first rest ih =>
      rw [Pool.located, List.map_cons, List.flatMap_cons, ih]
      rfl

/-- The literals tile the cells from the base of the pool on. -/
theorem tile_literalRows (values : List Int) (base : Int) :
    Row.Tile base ((Pool.located base values).map fun pair => literalRow pair.1 pair.2) := by
  induction values generalizing base with
  | nil => trivial
  | cons first rest ih => exact ⟨rfl, ih (base + 1)⟩

/-- The temp fields are clear. -/
theorem cells_tempRows (temps : List Temp) (base : Int) :
    ((tempCells base temps).map fun pair => tempRow pair.1 pair.2).flatMap Row.cells =
      List.replicate temps.length 0 := by
  induction temps generalizing base with
  | nil => rfl
  | cons first rest ih =>
      rw [tempCells, List.map_cons, List.flatMap_cons, ih]
      rfl

/-- The temp fields tile the cells behind the pool. -/
theorem tile_tempRows (temps : List Temp) (base : Int) :
    Row.Tile base ((tempCells base temps).map fun pair => tempRow pair.1 pair.2) := by
  induction temps generalizing base with
  | nil => trivial
  | cons first rest ih => exact ⟨rfl, ih (base + 1)⟩

end Assembly

/-! ## Symbols and cells of an image -/

namespace Image

/-- The values of the symbols of an image. -/
def value? (image : Image) : Environment := OrderedMap.get? image.symbols

/-- The cells of an image from an address on begin with the given ones. -/
def HasAt (image : Image) (address : Nat) (cells : List Int) : Prop :=
  (image.cells.drop address).take cells.length = cells

variable {image : Image} {address : Nat} {cells : List Int}

/-- Cells between others are at the address after the first ones. -/
theorem hasAt_of_append {before after : List Int} (h : image.cells = before ++ cells ++ after)
    (hlength : before.length = address) : image.HasAt address cells := by
  rw [HasAt, h, List.append_assoc, List.drop_left' hlength, List.take_left' rfl]

/-- Cells of the image are found at their addresses. -/
theorem HasAt.getElem? (h : image.HasAt address cells) {index : Nat}
    (hindex : index < cells.length) : image.cells[address + index]? = cells[index]? := by
  rw [← List.getElem?_drop, ← List.getElem?_take_of_lt hindex, h]

end Image

/-- Where names are defined once, the pairs of a table with known values are looked up as its
symbols are. -/
theorem SymbolTable.lookup_resolved {β : Type} {table : SymbolTable} (f : Symbol → Int → β)
    (hnodup : (table.symbols.map Symbol.name).Nodup) (name : String) :
    OrderedMap.get? (table.resolved.map fun pair => (pair.1.name, f pair.1 pair.2)) name =
      (table.find? name).bind fun symbol => symbol.value.map (f symbol) := by
  rw [OrderedMap.get?, resolved, find?]
  generalize table.symbols = symbols at hnodup ⊢
  induction symbols with
  | nil => rfl
  | cons first rest ih =>
      rw [List.map_cons, List.nodup_cons] at hnodup
      rw [List.filterMap_cons, List.find?_cons]
      by_cases hname : first.name = name
      · rw [beq_iff_eq.mpr hname]
        cases hvalue : first.value with
        | some value => simp [hname, hvalue]
        | none =>
            -- no other symbol has the name
            have hrest : rest.find? (·.name == name) = none := by
              rw [List.find?_eq_none]
              intro symbol hmem heq
              exact hnodup.1 (hname ▸ beq_iff_eq.mp heq ▸ List.mem_map_of_mem hmem)
            rw [Option.map_none, ih hnodup.2, hrest, Option.bind_some, hvalue]
            rfl
      · rw [beq_eq_false_iff_ne.mpr hname]
        cases hvalue : first.value with
        | some value =>
            rw [Option.map_some, List.map_cons, List.lookup_cons,
              beq_eq_false_iff_ne.mpr (Ne.symm hname)]
            exact ih hnodup.2
        | none => exact ih hnodup.2

/-! ## Rows of items -/

/-- Rows that show the contents of an item, where `cell` is what slots stand for. -/
def Item.Listed (cell : Slot → Option Int) (item : Item) (content : Content) (rows : List Row) :
    Prop :=
  match content with
  | .code _ triples => List.Forall₂ (fun triple row => row.address = triple.address ∧
      triple.slots.map cell = row.cells.map some) triples rows
  | .cells cells => ∃ row, rows = [row] ∧ row.address = item.address ∧ row.cells = cells

namespace Assembly

variable {table table' : SymbolTable} {pool : Pool} {base : Int}

section Resolve

variable (hpool : table.pool = pool.place base)
  (htemps : ∀ field : Temp, ∃ address, table.value? field.name = some address)

include hpool htemps

/-- A slot that can be resolved stands for a cell, and resolving it changes nothing. -/
theorem resolve_slot_sound {slot : Slot} {value : Int}
    (h : Yields slot.resolve table value table') :
    table' = table ∧
      slot.cell? table.value? (OrderedMap.get? (Pool.located base pool.values)) = some value := by
  cases slot with
  | address _ =>
      obtain ⟨rfl, rfl⟩ := yields_pure.mp h
      exact ⟨rfl, rfl⟩
  | literal number =>
      simp only [Slot.resolve, yields_bind, yields_get, yields_liftM] at h
      obtain ⟨_, _, ⟨rfl, rfl⟩, haddress, rfl⟩ := h
      rw [hpool] at haddress
      exact ⟨rfl, Pool.get?_of_addressOf haddress⟩
  | temp field =>
      obtain ⟨address, haddress⟩ := htemps field
      obtain ⟨rfl, rfl⟩ := (SymbolTable.yields_valueOf haddress).unique h
      exact ⟨rfl, haddress⟩

/-- Each triple has a row, with its address and with the places of its slots. -/
theorem tripleRows_sound {item : Item} {op : Operation} {triples : List Triple} {rows : List Row}
    (h : Yields (tripleRows item op triples) table rows table') :
    table' = table ∧ List.Forall₂ (fun triple row => row.address = triple.address ∧
      triple.slots.map (Slot.cell? table.value? (OrderedMap.get? (Pool.located base pool.values))) =
        row.cells.map some) triples rows := by
  induction triples generalizing rows with
  | nil =>
      obtain ⟨rfl, rfl⟩ := yields_pure.mp h
      exact ⟨rfl, .nil⟩
  | cons triple rest ih =>
      simp only [tripleRows, Triple.resolve, yields_bind, yields_pure] at h
      obtain ⟨_, _, ⟨a, _, ha, b, _, hb, c, _, hc, rfl, rfl⟩, others, _, hrest, rfl, rfl⟩ := h
      obtain ⟨rfl, ha⟩ := resolve_slot_sound hpool htemps ha
      obtain ⟨rfl, hb⟩ := resolve_slot_sound hpool htemps hb
      obtain ⟨rfl, hc⟩ := resolve_slot_sound hpool htemps hc
      obtain ⟨rfl, hothers⟩ := ih hrest
      refine ⟨rfl, .cons ?_ hothers⟩
      -- what a row is labelled with depends on its position, what it holds does not
      have hrow : (tripleRow item op triple [a, b, c]).address = triple.address ∧
          (tripleRow item op triple [a, b, c]).cells = [a, b, c] := by
        rw [tripleRow]
        split
        · exact ⟨rfl, rfl⟩
        · split <;> exact ⟨rfl, rfl⟩
      refine ⟨hrow.1, ?_⟩
      rw [hrow.2]
      simp [Triple.slots, ha, hb, hc]

/-- The rows of the items show the contents of the items, one after the other. -/
theorem itemsRows_sound {contents : List (Item × Content)} {rows : List Row}
    (h : Yields (itemsRows contents) table rows table') :
    table' = table ∧ ∃ groups, rows = groups.flatten ∧
      List.Forall₂ (fun pair group => pair.1.Listed
        (Slot.cell? table.value? (OrderedMap.get? (Pool.located base pool.values))) pair.2 group)
        contents groups := by
  induction contents generalizing rows with
  | nil =>
      obtain ⟨rfl, rfl⟩ := yields_pure.mp h
      exact ⟨rfl, [], rfl, .nil⟩
  | cons pair rest ih =>
      obtain ⟨item, content⟩ := pair
      simp only [itemsRows, yields_bind, yields_pure] at h
      obtain ⟨first, _, hfirst, others, _, hothers, rfl, rfl⟩ := h
      cases content with
      | code op triples =>
          obtain ⟨rfl, hlisted⟩ := tripleRows_sound hpool htemps hfirst
          obtain ⟨rfl, groups, rfl, hgroups⟩ := ih hothers
          exact ⟨rfl, first :: groups, rfl, .cons hlisted hgroups⟩
      | cells cells =>
          obtain ⟨rfl, rfl⟩ := yields_pure.mp hfirst
          obtain ⟨rfl, groups, rfl, hgroups⟩ := ih hothers
          exact ⟨rfl, _ :: groups, rfl, .cons ⟨_, rfl, rfl, rfl⟩ hgroups⟩

/-- What an image consists of: the symbols of the table, the pool, the temp fields, and a memory
that holds the rows of the listing. -/
structure Built (config : Config) (size tempBase base : Int) (values : List Int)
    (table : SymbolTable) (image : Image) : Prop where
  cellBits_eq : image.cellBits = config.cellBits
  entry_eq : image.entry = 0
  symbols_eq : image.symbols = table.resolved.map fun pair => (pair.1.name, pair.2)
  kinds_eq : image.kinds = table.resolved.map fun pair => (pair.1.name, pair.1.kind.name)
  pool_eq : image.pool = Pool.located base values
  temps_eq : image.temps = tempCells tempBase Temp.all
  cells_eq : image.cells = (memory size.toNat image.listing).toList

/-- Building an image does not change the table, and the listing has a group of rows for each item,
then the literals, then the temp fields. -/
theorem buildImage_sound {config : Config} {size tempBase : Int} {contents : List (Item × Content)}
    {image : Image} (h : Yields (buildImage config size tempBase contents) table image table') :
    Built config size tempBase base pool.values table image ∧ ∃ groups,
      image.listing = groups.flatten ++ image.pool.map (fun pair => literalRow pair.1 pair.2) ++
        image.temps.map (fun pair => tempRow pair.1 pair.2) ∧
      List.Forall₂ (fun pair group => pair.1.Listed
        (Slot.cell? table.value? (OrderedMap.get? (Pool.located base pool.values))) pair.2 group)
        contents groups := by
  simp only [buildImage, yields_bind, yields_get, yields_liftM, yields_pure] at h
  obtain ⟨rows, _, hrows, _, _, ⟨-, rfl⟩, _, _, ⟨rfl, rfl⟩, rfl, -⟩ := h
  obtain ⟨rfl, groups, rfl, hlisted⟩ := itemsRows_sound hpool htemps hrows
  refine ⟨⟨rfl, rfl, rfl, rfl, ?_, rfl, rfl⟩, groups, rfl, hlisted⟩
  rw [hpool, Pool.poolCells_place]

end Resolve

end Assembly

/-! ## Items and their rows -/

namespace Item

variable {width : Width} {env : Environment} {cell : Slot → Option Int} {item : Item}

/-- Rows that hold what an item stands for: one for each triple of an operation, and one for a
directive. -/
structure Shown (width : Width) (env : Environment) (cell : Slot → Option Int) (item : Item)
    (rows : List Row) : Prop where
  tile : Row.Tile item.address rows
  cells : match item.body with
    | .operation op => ∃ slots, op.expansion? width env item.address = some slots ∧
        rows.map (·.cells.map some) =
          slots.map fun slot => [cell slot.1, cell slot.2.1, cell slot.2.2]
    | .data _ values => ∃ row, rows = [row] ∧
        Datum.cellsOf? width env item.endAddress values = some row.cells
    | .reserve _ _ => ∃ row, rows = [row] ∧ row.cells = List.replicate item.size 0

/-- The rows of numbered triples follow one another. -/
theorem tile_of_number {base : Int} {index : Nat} {slots : List (Slot × Slot × Slot)}
    {rows : List Row}
    (h : List.Forall₂ (fun (triple : Triple) (row : Row) => row.address = triple.address ∧
      triple.slots.map cell = row.cells.map some) (Operation.number base index slots) rows) :
    Row.Tile (base + tripleSize * index) rows ∧
      rows.map (·.cells.map some) =
        slots.map fun slot => [cell slot.1, cell slot.2.1, cell slot.2.2] := by
  induction slots generalizing index rows with
  | nil =>
      cases h
      exact ⟨trivial, rfl⟩
  | cons slot rest ih =>
      obtain ⟨a, b, c⟩ := slot
      rw [Operation.number] at h
      cases h with
      | cons hrow hrest =>
          obtain ⟨haddress, hcells⟩ := hrow
          obtain ⟨htile, hmap⟩ := ih hrest
          have hlength := congrArg List.length hcells
          rw [List.length_map, List.length_map] at hlength
          -- the next row starts three cells on, which is the length of this one
          refine ⟨⟨haddress, ?_⟩, ?_⟩
          · rw [← hlength]
            convert htile using 1
            simp only [Triple.slots, List.length_cons, List.length_nil, tripleSize]
            push_cast
            ring
          · rw [List.map_cons, List.map_cons, hmap, ← hcells]
            rfl

/-- What an item becomes is shown by the rows that list it. -/
theorem shown_of_listed {content : Content} {rows : List Row}
    (hsize : item.body.size? width env = some item.size) (hbecomes : item.Becomes width env content)
    (hlisted : item.Listed cell content rows) : item.Shown width env cell rows := by
  cases content with
  | code op triples =>
      obtain ⟨hbody, slots, hslots, rfl⟩ := hbecomes
      obtain ⟨htile, hmap⟩ := tile_of_number hlisted
      refine ⟨by simpa using htile, ?_⟩
      rw [hbody]
      exact ⟨slots, hslots, hmap⟩
  | cells cells =>
      obtain ⟨row, rfl, haddress, rfl⟩ := hlisted
      refine ⟨⟨haddress, trivial⟩, ?_⟩
      simp only [Becomes] at hbecomes
      -- cells belong to data or to a reservation, never to an operation
      cases hbody : item.body with
      | operation op =>
          rw [hbody] at hbecomes
          exact hbecomes.elim
      | data size values =>
          rw [hbody] at hbecomes
          exact ⟨row, rfl, hbecomes⟩
      | reserve size count =>
          rw [hbody] at hbecomes hsize
          obtain ⟨number, hnumber, hcells⟩ := hbecomes
          rw [Body.size?_reserve_eq_some, hnumber] at hsize
          rw [Option.some.inj hsize, Int.toNat_natCast] at hcells
          exact ⟨row, rfl, hcells⟩

/-- A row of an operation has three cells. -/
theorem length_cells_of_map_eq {rows : List Row} {slots : List (Slot × Slot × Slot)}
    (h : rows.map (·.cells.map some) =
      slots.map fun slot => [cell slot.1, cell slot.2.1, cell slot.2.2])
    {row : Row} (hmem : row ∈ rows) : row.cells.length = tripleSize := by
  have hrow : row.cells.map some ∈ rows.map (·.cells.map some) := List.mem_map_of_mem hmem
  rw [h] at hrow
  obtain ⟨slot, -, hslot⟩ := List.mem_map.mp hrow
  have hlength : (row.cells.map some).length = row.cells.length := List.length_map _
  rw [← hlength, ← hslot]
  rfl

/-- The rows of an item have as many cells as the first pass counts for it. -/
theorem Shown.length_eq {rows : List Row} (h : item.Shown width env cell rows)
    (hsize : item.body.size? width env = some item.size) :
    (rows.flatMap Row.cells).length = item.size := by
  have hcells := h.cells
  cases hbody : item.body with
  | operation op =>
      rw [hbody] at hcells hsize
      obtain ⟨slots, hslots, hmap⟩ := hcells
      -- every row of an operation has the three cells of a triple
      have hsum : (rows.flatMap Row.cells).length = slots.length * tripleSize := by
        have hthree : ∀ row ∈ rows, row.cells.length = tripleSize :=
          fun row hmem => length_cells_of_map_eq hmap hmem
        have hlength : rows.length = slots.length := by
          simpa using congrArg List.length hmap
        rw [List.length_flatMap, List.map_congr_left hthree, List.map_const', List.sum_replicate,
          smul_eq_mul, hlength]
      rw [hsum, Operation.length_expansion? hslots]
      exact Option.some.inj hsize
  | data size values =>
      rw [hbody] at hcells hsize
      obtain ⟨row, rfl, hrow⟩ := hcells
      rw [List.flatMap_singleton, Datum.length_cellsOf? hrow]
      exact Option.some.inj hsize
  | reserve size count =>
      rw [hbody] at hcells
      obtain ⟨row, rfl, hrow⟩ := hcells
      rw [List.flatMap_singleton, hrow, List.length_replicate]

/-- The cells of the rows of an operation are what its slots stand for. -/
theorem Shown.map_cells {rows : List Row} {op : Operation} {slots : List (Slot × Slot × Slot)}
    (h : item.Shown width env cell rows) (hbody : item.body = .operation op)
    (hslots : op.expansion? width env item.address = some slots) :
    (rows.flatMap Row.cells).map some = (Slot.flatten slots).map cell := by
  have hcells := h.cells
  rw [hbody] at hcells
  obtain ⟨slots', hslots', hmap⟩ := hcells
  rw [hslots] at hslots'
  obtain rfl := Option.some.inj hslots'
  rw [List.map_flatMap, List.flatMap_def, hmap, Slot.flatten, List.map_flatMap, List.flatMap_def]
  rfl

/-- The rows of contiguous items follow one another, and those of each item stand at its address. -/
theorem Contiguous.tile {address stop : Nat} {items : List Item} {groups : List (List Row)}
    (h : Contiguous address items stop)
    (hsizes : ∀ item ∈ items, item.body.size? width env = some item.size)
    (hshown : List.Forall₂ (Shown width env cell) items groups) :
    Row.Tile address groups.flatten ∧
      address + (groups.flatten.flatMap Row.cells).length = stop ∧
      ∀ item ∈ items, ∃ rows before after, item.Shown width env cell rows ∧
        groups.flatten.flatMap Row.cells = before ++ rows.flatMap Row.cells ++ after ∧
        address + before.length = item.address := by
  -- by induction on the items; what is stored of the first one moves the others up by its size
  induction hshown generalizing address with
  | nil =>
      obtain rfl := h
      exact ⟨trivial, rfl, by simp⟩
  | @cons first rows items groups hfirst hrest ih =>
      obtain ⟨rfl, hcontiguous⟩ := h
      have hlength := hfirst.length_eq (hsizes first (by simp))
      obtain ⟨htile, hstop, hitems⟩ :=
        ih hcontiguous fun item hmem => hsizes item (List.mem_cons_of_mem _ hmem)
      rw [List.flatten_cons, List.flatMap_append, List.length_append, hlength]
      refine ⟨hfirst.tile.append ?_, ?_, fun item hmem => ?_⟩
      · rw [hlength]
        exact_mod_cast htile
      · rw [← hstop, endAddress]
        omega
      -- an item stands behind the cells of all items before it
      · rcases List.mem_cons.mp hmem with rfl | hmem
        · exact ⟨rows, [], groups.flatten.flatMap Row.cells, hfirst, rfl, rfl⟩
        · obtain ⟨rows', before, after, hshown, hcells, haddress⟩ := hitems item hmem
          refine ⟨rows', rows.flatMap Row.cells ++ before, after, hshown, ?_, ?_⟩
          · rw [hcells, List.append_assoc, List.append_assoc, List.append_assoc]
          · rw [List.length_append, hlength, ← haddress, endAddress]
            omega

end Item

end Subleq
