import Subleq.Proofs.Assembly
import Subleq.Proofs.Machine

/-!
# Values fit into cells

Expressions are wrapped, but `$`, the targets inside of an expansion and the addresses of literals
and temp fields are not: that these fit into a cell rests on the bound on the size of an image,
which is never more than there are addresses that do.  Then every cell and every symbol of an image
fits (`Image.representable_of_assemble`), and a machine that loads the image has the cells of the
image as its memory, since wrapping changes none of them.
-/

namespace Subleq

variable {width : Width} {env : Environment} {here : Int}

/-! ## Cells -/

/-- Data is brought into cells, so it fits. -/
theorem Datum.fits_cellsOf? {values : List Datum} {cells : List Int}
    (h : cellsOf? width env here values = some cells) : ∀ cell ∈ cells, width.Fits cell := by
  induction values generalizing cells with
  | nil =>
      obtain rfl := Option.some.inj h
      simp
  | cons datum rest ih =>
      simp only [cellsOf?, Option.bind_eq_bind, Option.bind_eq_some_iff] at h
      obtain ⟨first, hfirst, others, hothers, h⟩ := h
      obtain rfl := Option.some.inj h
      intro cell hmem
      -- a string is wrapped byte by byte, and a value when it is evaluated
      rcases List.mem_append.mp hmem with hmem | hmem
      · cases datum with
        | text t =>
            obtain rfl := Option.some.inj hfirst
            obtain ⟨byte, -, rfl⟩ := List.mem_map.mp hmem
            exact width.fits_wrap byte
        | value e =>
            obtain ⟨value, hvalue, rfl⟩ := Option.map_eq_some_iff.mp hfirst
            rw [List.mem_singleton.mp hmem]
            exact Expr.fits_eval hvalue
      · exact ih hothers cell hmem

namespace Assembly.Stages

variable {config : Config} {defines : Defines} {source file : String} {image : Image}
  (S : Stages config defines source file image)

/-- What a slot stands for fits into a cell. -/
theorem fits_cell {slot : Slot} (hslot : slot.Fits S.width) {value : Int}
    (h : S.cell slot = some value) : S.width.Fits value := by
  cases slot with
  | address _ =>
      obtain rfl := Option.some.inj h
      exact hslot
  | literal _ =>
      obtain ⟨index, rfl, hindex⟩ :=
        Pool.exists_index_of_mem_located (OrderedMap.mem_of_get? h)
      have hlt := (List.getElem?_eq_some_iff.mp hindex).1
      have hsize := S.size_eq
      have hmax := S.size_le_max
      exact Width.fits_of_nonneg (by omega) (by omega)
  | temp _ => exact S.stored_sound.1.fits_value? h

/-- What an item is shown as fits. -/
theorem fits_shown {item : Item} {rows : List Row} (hmem : item ∈ S.layout.items)
    (h : item.Shown S.width S.table.value? S.cell rows) :
    ∀ cell ∈ rows.flatMap Row.cells, S.width.Fits cell := by
  have hcells := h.cells
  intro cell hcell
  -- operations have cells that fit by the origin of their slots, data as they are brought into
  -- cells
  cases hbody : item.body with
  | operation op =>
      rw [hbody] at hcells
      obtain ⟨slots, hslots, -⟩ := hcells
      have hend : S.width.Fits (item.address + op.triples * tripleSize) :=
        S.endAddress_eq hmem hbody ▸ S.fits_of_le_itemsEnd (S.covers.contiguous.bounds hmem).2
      have hsome : some cell ∈ (rows.flatMap Row.cells).map some := List.mem_map_of_mem hcell
      rw [h.map_cells hbody hslots] at hsome
      obtain ⟨slot, hslot, heq⟩ := List.mem_map.mp hsome
      have horigin := Operation.origin_of_mem hslots hslot
      exact S.fits_cell (horigin.fits (Int.natCast_nonneg _) hend) heq
  | data size values =>
      rw [hbody] at hcells
      obtain ⟨row, rfl, hrow⟩ := hcells
      rw [List.flatMap_singleton] at hcell
      exact Datum.fits_cellsOf? hrow cell hcell
  | reserve size count =>
      rw [hbody] at hcells
      obtain ⟨row, rfl, hrow⟩ := hcells
      rw [List.flatMap_singleton, hrow] at hcell
      rw [List.eq_of_mem_replicate hcell]
      exact Width.fits_zero

/-- So does what all items are shown as. -/
theorem fits_groups {items : List Item} {groups : List (List Row)}
    (hitems : ∀ item ∈ items, item ∈ S.layout.items)
    (h : List.Forall₂ (Item.Shown S.width S.table.value? S.cell) items groups) :
    ∀ cell ∈ groups.flatten.flatMap Row.cells, S.width.Fits cell := by
  induction h with
  | nil => simp
  | @cons item rows items groups hfirst hrest ih =>
      intro cell hcell
      rw [List.flatten_cons, List.flatMap_append] at hcell
      rcases List.mem_append.mp hcell with hcell | hcell
      · exact S.fits_shown (hitems item (by simp)) hfirst cell hcell
      · exact ih (fun item hmem => hitems item (List.mem_cons_of_mem _ hmem)) cell hcell

/-- Every cell of the image fits into a cell of its width. -/
theorem fits_cells : ∀ cell ∈ image.cells, S.width.Fits cell := by
  obtain ⟨groups, hlisting, hshown⟩ := S.shown
  rw [S.cells_eq, hlisting, S.built.pool_eq, S.built.temps_eq, List.flatMap_append,
    List.flatMap_append, cells_literalRows, cells_tempRows]
  intro cell hcell
  rcases List.mem_append.mp hcell with hcell | hcell
  · rcases List.mem_append.mp hcell with hcell | hcell
    · exact S.fits_groups (fun _ hmem => hmem) hshown cell hcell
    · exact S.expanded_sound.2.1.pooled.fits cell hcell
  · rw [List.eq_of_mem_replicate hcell]
    exact Width.fits_zero

/-! ## Symbols -/

/-- So does the value of every symbol. -/
theorem fits_symbols : ∀ pair ∈ image.symbols, S.width.Fits pair.2 := by
  intro pair hmem
  rw [S.built.symbols_eq] at hmem
  obtain ⟨⟨symbol, value⟩, hresolved, rfl⟩ := List.mem_map.mp hmem
  obtain ⟨symbol', hsymbol, heq⟩ := List.mem_filterMap.mp hresolved
  obtain ⟨value', hvalue, heq⟩ := Option.map_eq_some_iff.mp heq
  cases heq
  exact S.range.fits (S.stored_sound.1.holds
    (SymbolTable.find?_of_mem S.stored_sound.1.nodup hsymbol) hvalue)

include S in
/-- A label is an address of the image, also if no item follows it. -/
theorem label_bounds {name : String} {value : Int} (hvalue : image.value? name = some value)
    (hkind : image.kindOf name = "LABEL") : 0 ≤ value ∧ value < image.size := by
  rw [S.value?_image] at hvalue
  obtain ⟨symbol, hfind, hsymbol⟩ := SymbolTable.value?_eq_some.mp hvalue
  rw [Image.kindOf, S.built.kinds_eq,
    SymbolTable.lookup_resolved (fun symbol _ => symbol.kind.name) S.stored_sound.1.nodup, hfind,
    Option.bind_some, hsymbol, Option.map_some, Option.getD_some] at hkind
  have hholds := S.stored_sound.1.holds hfind hsymbol
  have hsize := S.length_cells
  have hend := S.itemsEnd_lt_size
  -- the kind is told by its name; only labels are called so
  cases hsymbolKind : symbol.kind with
  | label =>
      rw [hsymbolKind] at hholds
      obtain ⟨hlow, hhigh⟩ := hholds
      exact ⟨hlow, by rw [Image.size]; omega⟩
  | constant | literal | temp =>
      rw [hsymbolKind] at hkind
      exact absurd hkind (by decide)

/-- Every label of the program has an address of the image as its value. -/
theorem exists_value_of_label {name : String} {location : Location}
    (h : .label name location ∈ S.statements) :
    ∃ value, image.value? name = some value ∧ 0 ≤ value ∧ value < image.size := by
  obtain ⟨value, hvalue, hle⟩ := S.placed_sound.2.2.2 name location h
  have hsize := S.length_cells
  have hend := S.itemsEnd_lt_size
  refine ⟨value, ?_, by omega, by rw [Image.size]; omega⟩
  rw [S.value?_image]
  exact (S.checked_sound.1.toExtends.trans S.checked_extends).le _ _ hvalue

include S in
/-- Pooled literals have addresses of the image. -/
theorem pool_bounds : ∀ pair ∈ image.pool, 0 ≤ pair.2 ∧ pair.2 < image.size := by
  rintro ⟨value, address⟩ hmem
  rw [S.built.pool_eq] at hmem
  obtain ⟨index, rfl, hindex⟩ := Pool.exists_index_of_mem_located hmem
  have hlt := (List.getElem?_eq_some_iff.mp hindex).1
  have hsize := S.size_eq
  have hlength := S.length_cells
  exact ⟨by omega, by rw [Image.size]; omega⟩

include S in
/-- So have temp fields. -/
theorem temps_bounds : ∀ pair ∈ image.temps, 0 ≤ pair.2 ∧ pair.2 < image.size := by
  intro pair hmem
  have hsize := S.size_eq
  have hlength := S.length_cells
  have hthree : Temp.all.length = 3 := rfl
  rw [S.built.temps_eq] at hmem
  simp only [Temp.all, tempCells, List.mem_cons, List.not_mem_nil, or_false] at hmem
  rcases hmem with rfl | rfl | rfl <;> exact ⟨by omega, by rw [Image.size]; omega⟩

end Assembly.Stages

/-! ## The image as a whole -/

/-- A machine that loads an image whose cells fit has these cells as its memory. -/
theorem Machine.build_ofImage {image : Image} (hwidth : Width.ofInt? image.cellBits = some width)
    (hfits : ∀ cell ∈ image.cells, width.Fits cell) :
    build (Program.ofImage image) none none none =
      .ok { width, loaded := image.cells.toArray, entry := image.entry, temps := image.temps
            state := image.loaded, halt := none, points := Breakpoints.none } := by
  have hbits := Width.bits_of_ofInt? hwidth
  have htwo := width.two_le_bits
  have hchoose : chooseBits none image.cellBits = image.cellBits := by
    have hne : image.cellBits ≠ 0 := by omega
    simp [chooseBits, hne]
  have hload : loadCells width image.cells image.cells.length = image.cells.toArray := by
    rw [loadCells, Nat.sub_self, List.replicate_zero, List.append_nil]
    congr 1
    exact (List.map_congr_left fun cell hmem => Width.wrap_of_fits (hfits cell hmem)).trans
      (List.map_id _)
  simp [build, Program.ofImage, Image.loaded, hchoose, hwidth, hload]

namespace Image

/-- The values of an image fit into its cells, its addresses are addresses of it, and a machine that
loads it has its cells as memory. -/
structure Representable (config : Config) (statements : List Statement) (image : Image) : Prop where
  cells : ∀ cell ∈ image.cells,
    -(2 ^ (config.cellBits.toNat - 1)) ≤ cell ∧ cell ≤ 2 ^ (config.cellBits.toNat - 1) - 1
  symbols : ∀ pair ∈ image.symbols,
    -(2 ^ (config.cellBits.toNat - 1)) ≤ pair.2 ∧ pair.2 ≤ 2 ^ (config.cellBits.toNat - 1) - 1
  size_le : (image.size : Int) ≤ min config.maxImageSize (2 ^ (config.cellBits.toNat - 1))
  kinds : ∀ name value, image.value? name = some value → image.kindOf name = "LABEL" →
    0 ≤ value ∧ value < image.size
  labels : ∀ name location, .label name location ∈ statements →
    ∃ value, image.value? name = some value ∧ 0 ≤ value ∧ value < image.size
  pool : ∀ pair ∈ image.pool, 0 ≤ pair.2 ∧ pair.2 < image.size
  temps : ∀ pair ∈ image.temps, 0 ≤ pair.2 ∧ pair.2 < image.size
  loaded : ∃ machine, Machine.build (.ofImage image) none none none = .ok machine ∧
    machine.state.memory.toList = image.cells

/-- What is assembled fits into its cells, and is loaded as it is. -/
theorem representable_of_assemble {config : Config} {defines : Defines} {source file : String}
    {image : Image} (h : assemble config defines source file = .ok image) :
    2 ≤ config.cellBits ∧ ∃ statements, Statement.parse source file = .ok statements ∧
      image.Representable config statements := by
  obtain ⟨S⟩ := Assembly.nonempty_stages h
  have hbits : S.width.bits = config.cellBits.toNat := by
    have := S.bits_eq
    omega
  -- the bounds of the width as powers
  have hfits : ∀ value, S.width.Fits value →
      -(2 ^ (config.cellBits.toNat - 1)) ≤ value ∧ value ≤ 2 ^ (config.cellBits.toNat - 1) - 1 := by
    intro value hvalue
    rw [← hbits, ← Width.min_eq, ← Width.max_eq]
    exact hvalue
  have hwidth : Width.ofInt? image.cellBits = some S.width := by
    rw [S.built.cellBits_eq]
    exact S.ofInt?_cellBits
  refine ⟨?_, S.statements, S.parse_eq, fun cell hmem => hfits cell (S.fits_cells cell hmem),
    fun pair hmem => hfits _ (S.fits_symbols pair hmem), ?_, fun _ _ => S.label_bounds,
    fun _ _ => S.exists_value_of_label, S.pool_bounds, S.temps_bounds,
    _, Machine.build_ofImage hwidth S.fits_cells, rfl⟩
  · rw [← S.bits_eq]
    exact_mod_cast S.width.two_le_bits
  · have hle := S.size_le
    rw [Layout.sizeLimit, Width.max_eq, hbits, sub_add_cancel] at hle
    rw [Image.size, S.length_cells]
    exact hle

theorem representable_sum : ∃ image,
    assemble Assembly.sumConfig [("k", 7)] Assembly.sumSource "sum" = .ok image ∧
      2 ≤ Assembly.sumConfig.cellBits ∧
      ∃ statements, Statement.parse Assembly.sumSource "sum" = .ok statements ∧
        image.Representable Assembly.sumConfig statements := by
  obtain ⟨image, h⟩ := Assembly.exists_assemble_sum
  exact ⟨image, h, representable_of_assemble h⟩

end Image

end Subleq
