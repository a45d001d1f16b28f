import Subleq.Proofs.Assembly

/-!
# The environment of the image

Constants are folded at different moments, some of them while labels are still missing, and literals
and temp fields get their addresses only after the second pass has used them.  None of that shows in
the result (`Image.explained_of_assemble`): with the symbols of the finished image as environment,
every constant has the value of its own definition, every value of a data directive that of its
expression, and every operation has the cells of the table of expansions.
-/

namespace Subleq

/-- The cell of a value among others is that of its expression. -/
theorem Datum.getElem?_cellsOf? {width : Width} {env : Environment} {here : Int} {e : Expr}
    {before after : List Datum} {cells : List Int}
    (h : cellsOf? width env here (before ++ .value e :: after) = some cells) :
    ∃ value, e.eval width env (some here) = some value ∧
      cells[(before.map Datum.size).sum]? = some value := by
  -- by induction on what comes before; each datum moves the others up by its cells
  induction before generalizing cells with
  | nil =>
      simp only [List.nil_append, cellsOf?, cells?, Option.bind_eq_bind,
        Option.bind_eq_some_iff, Option.map_eq_some_iff] at h
      obtain ⟨first, ⟨value, hvalue, rfl⟩, others, -, h⟩ := h
      obtain rfl := Option.some.inj h
      exact ⟨value, hvalue, rfl⟩
  | cons datum rest ih =>
      simp only [List.cons_append, cellsOf?, Option.bind_eq_bind, Option.bind_eq_some_iff] at h
      obtain ⟨first, hfirst, others, hothers, h⟩ := h
      obtain rfl := Option.some.inj h
      obtain ⟨value, hvalue, hcell⟩ := ih hothers
      refine ⟨value, hvalue, ?_⟩
      rw [List.map_cons, List.sum_cons, ← length_cells? hfirst,
        List.getElem?_append_right (Nat.le_add_right _ _), Nat.add_sub_cancel_left, hcell]

namespace Image

/-- Everything in the image is what the program says in the environment of the image. -/
structure Explained (width : Width) (definitions : List (String × Expr)) (layout : Layout)
    (image : Image) : Prop where
  definitions_eq : ∀ name definition, (name, definition) ∈ definitions →
    ∃ value, image.value? name = some value ∧
      definition.eval width image.value? none = some value
  data_eq : ∀ item ∈ layout.items, ∀ size before e after,
    item.body = .data size (before ++ .value e :: after) →
    ∃ value, e.eval width image.value? (some item.endAddress) = some value ∧
      image.cells[item.address + (before.map Datum.size).sum]? = some value
  operations_eq : ∀ item ∈ layout.items, ∀ op, item.body = .operation op →
    ∃ slots cells, op.expansion? width image.value? item.address = some slots ∧
      (Slot.flatten slots).map (Slot.cell? image.value? (OrderedMap.get? image.pool)) =
        cells.map some ∧
      image.HasAt item.address cells

/-- What is assembled is what the program says, with the symbols of the image as environment. -/
theorem explained_of_assemble {config : Config} {defines : Defines} {source file : String}
    {image : Image} (h : assemble config defines source file = .ok image) :
    ∃ statements width layout, Statement.parse source file = .ok statements ∧
      (width.bits : Int) = config.cellBits ∧
      Assembly.firstPass config defines source file = .ok layout ∧
      layout.Covers width image.value? config.entryJump statements ∧
      image.Explained width (Assembly.definitions defines statements) layout := by
  obtain ⟨S⟩ := Assembly.nonempty_stages h
  -- three parts: the constants, the values of data directives, the cells of operations
  refine ⟨S.statements, S.width, S.layout, S.parse_eq, S.bits_eq, S.firstPass_eq,
    S.value?_image ▸ S.covers, fun name definition hmem => ?_,
    fun item hmem size before e after hbody => ?_, fun item hmem op hbody => ?_⟩
  · rw [S.value?_image]
    exact S.eval_definition hmem
  · rw [S.value?_image]
    obtain ⟨rows, hshown, hat⟩ := S.exists_shown_hasAt hmem
    have hcells := hshown.cells
    rw [hbody] at hcells
    obtain ⟨row, rfl, hrow⟩ := hcells
    obtain ⟨value, hvalue, hcell⟩ := Datum.getElem?_cellsOf? hrow
    rw [List.flatMap_singleton] at hat
    refine ⟨value, hvalue, ?_⟩
    rw [hat.getElem? (List.getElem?_eq_some_iff.mp hcell).1, hcell]
  · rw [← S.cell_eq, S.value?_image]
    obtain ⟨slots, hslots⟩ := S.exists_expansion hmem hbody
    obtain ⟨cells, hmap, -, hat⟩ := S.hasAt_expansion hmem hbody hslots
    exact ⟨slots, cells, hslots, hmap, hat⟩

theorem explained_sum : ∃ image,
    assemble Assembly.sumConfig [("k", 7)] Assembly.sumSource "sum" = .ok image ∧
      ∃ statements width layout, Statement.parse Assembly.sumSource "sum" = .ok statements ∧
        (width.bits : Int) = Assembly.sumConfig.cellBits ∧
        Assembly.firstPass Assembly.sumConfig [("k", 7)] Assembly.sumSource "sum" = .ok layout ∧
        layout.Covers width image.value? Assembly.sumConfig.entryJump statements ∧
        image.Explained width (Assembly.definitions [("k", 7)] statements) layout := by
  obtain ⟨image, h⟩ := Assembly.exists_assemble_sum
  exact ⟨image, h, explained_of_assemble h⟩

end Image

end Subleq
