import Subleq.Proofs.Assembly

/-!
# The listing tiles the image

The first pass gives an item its number of cells before anything is known about what will stand in
them, and the second pass produces the cells without looking at that number.  The listing shows that
the two agree: its rows follow one another without gap or overlap, and their cells are the cells of
the image (`Image.tiled_of_assemble`).  The rows are those of the items in the order of the source,
after the jump to the first operation if there is one, then those of the literals in the order of
their first uses, and then those of the temp fields.
-/

namespace Subleq

namespace Item

/-- The rows of an item: one of three cells for every triple of an operation, and one of the size of
the item for a directive. -/
def HasRows (item : Item) (rows : List Row) : Prop :=
  match item.body with
  | .operation op => rows.length = op.triples ∧ ∀ row ∈ rows, row.cells.length = 3
  | .data _ _ | .reserve _ _ => ∃ row, rows = [row] ∧ row.cells.length = item.size

/-- An item that is shown has rows of the size that it was measured to have. -/
theorem Shown.hasRows {width : Width} {env : Environment} {cell : Slot → Option Int} {item : Item}
    {rows : List Row} (h : item.Shown width env cell rows)
    (hsize : item.body.size? width env = some item.size) : item.HasRows rows := by
  have hlength := h.length_eq hsize
  have hcells := h.cells
  rw [HasRows]
  cases hbody : item.body with
  | operation op =>
      rw [hbody] at hcells
      obtain ⟨slots, hslots, hmap⟩ := hcells
      have hrows := congrArg List.length hmap
      rw [List.length_map, List.length_map, Operation.length_expansion? hslots] at hrows
      exact ⟨hrows, fun row hmem => length_cells_of_map_eq hmap hmem⟩
  | data _ _ | reserve _ _ =>
      rw [hbody] at hcells
      obtain ⟨row, rfl, -⟩ := hcells
      exact ⟨row, rfl, by simpa using hlength⟩

end Item

namespace Image

/-- The image consists of the rows of its listing, and these are the rows of the items of a layout,
of the literals that the items use, and of the temp fields. -/
structure Tiled (width : Width) (layout : Layout) (image : Image) : Prop where
  cells_eq : image.listing.flatMap Row.cells = image.cells
  address_eq : ∀ before row after, image.listing = before ++ row :: after →
    row.address = (before.flatMap Row.cells).length
  rows : ∃ items literals temps, image.listing = items.flatten ++ literals ++ temps ∧
    List.Forall₂ Item.HasRows layout.items items ∧
    literals.map (fun row => (row.cells, row.address)) =
      image.pool.map (fun pair => ([pair.1], pair.2)) ∧
    temps.map (fun row => (row.cells, row.address)) = image.temps.map (fun pair => ([0], pair.2))
  pool_eq : image.pool.map Prod.fst =
    (layout.items.flatMap (Item.literals width image.value?)).eraseDups
  temps_eq : image.temps.map Prod.fst = ["$t", "$e", "$r"]
  pool_cells : ∀ value address, OrderedMap.get? image.pool value = some address →
    0 ≤ address ∧ image.cells[address.toNat]? = some value

/-- What is assembled is tiled by the rows of its listing, for the layout that the first pass gives
to the program. -/
theorem tiled_of_assemble {config : Config} {defines : Defines} {source file : String}
    {image : Image} (h : assemble config defines source file = .ok image) :
    ∃ statements width layout, Statement.parse source file = .ok statements ∧
      (width.bits : Int) = config.cellBits ∧
      Assembly.firstPass config defines source file = .ok layout ∧
      layout.Covers width image.value? config.entryJump statements ∧ image.Tiled width layout := by
  obtain ⟨S⟩ := Assembly.nonempty_stages h
  refine ⟨S.statements, S.width, S.layout, S.parse_eq, S.bits_eq, S.firstPass_eq,
    S.value?_image ▸ S.covers, ?_⟩
  obtain ⟨groups, hlisting, hshown⟩ := S.shown
  -- the parts in the order of the structure
  refine ⟨S.cells_eq.symm, fun before row after heq => ?_, ⟨groups, _, _, hlisting, ?_, ?_, ?_⟩,
    ?_, ?_, fun value address hget => ?_⟩
  · have htile := S.tile_listing
    rw [heq] at htile
    simpa using htile.address_eq
  -- every item is shown with the size that it was placed with
  · have hall := (List.forall₂_and_left _ _).mpr ⟨S.covers.sizes, hshown⟩
    exact hall.imp fun item rows h => h.2.hasRows h.1
  · rw [List.map_map]
    rfl
  · rw [List.map_map]
    rfl
  · rw [S.value?_image, ← S.values_eq, S.built.pool_eq, Pool.map_fst_located]
  · rw [S.built.temps_eq]
    rfl
  · rw [S.built.pool_eq] at hget
    obtain ⟨hlow, -, hcell⟩ := S.getElem?_of_mem_pool (OrderedMap.mem_of_get? hget)
    exact ⟨by omega, hcell⟩

theorem tiled_sum : ∃ image,
    assemble Assembly.sumConfig [("k", 7)] Assembly.sumSource "sum" = .ok image ∧
    ∃ statements width layout, Statement.parse Assembly.sumSource "sum" = .ok statements ∧
      (width.bits : Int) = Assembly.sumConfig.cellBits ∧
      Assembly.firstPass Assembly.sumConfig [("k", 7)] Assembly.sumSource "sum" = .ok layout ∧
      layout.Covers width image.value? Assembly.sumConfig.entryJump statements ∧
      image.Tiled width layout := by
  obtain ⟨image, h⟩ := Assembly.exists_assemble_sum
  exact ⟨image, h, tiled_of_assemble h⟩

end Image

end Subleq
