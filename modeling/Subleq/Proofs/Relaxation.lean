import Subleq.Proofs.Bitwise
import Subleq.Proofs.Refusal
import Subleq.Proofs.Simulation

/-!
# Relaxing the options

A strict assembly that succeeds has met no value that does not fit into a cell.  So nothing that it
computes depends on the width of the cells: with wider cells, a larger bound on the size, and with
or without the strictness, all stages return the same, and leave tables that are the same but for
their arithmetic (`SymbolTable.simulation_relaxed`).  The one operation in which the width itself
occurs is the left shift, and a shift by more than the width fits into a cell only if it shifts zero
(`BinaryOp.exists_apply_of_relaxes`).
-/

namespace Subleq

open Folding

/-! ## Arithmetic -/

/-- What fits into a cell fits into a wider one. -/
theorem Width.fits_mono {w w' : Width} (hbits : w.bits ≤ w'.bits) {value : Int}
    (h : w.Fits value) : w'.Fits value := by
  have hpow : (2 : Int) ^ (w.bits - 1) ≤ 2 ^ (w'.bits - 1) :=
    pow_le_pow_right₀ (by omega) (by omega)
  obtain ⟨hlow, hhigh⟩ := h
  rw [min_eq] at hlow
  rw [max_eq] at hhigh
  exact ⟨by rw [min_eq]; omega, by rw [max_eq]; omega⟩

/-- The largest value grows with the width. -/
theorem Width.max_mono {w w' : Width} (hbits : w.bits ≤ w'.bits) : w.max ≤ w'.max := by
  have hpow : (2 : Int) ^ (w.bits - 1) ≤ 2 ^ (w'.bits - 1) :=
    pow_le_pow_right₀ (by omega) (by omega)
  rw [max_eq, max_eq]
  omega

/-- The second arithmetic accepts all that the first one does, which is strict. -/
structure Arithmetic.Relaxes (arith arith' : Arithmetic) : Prop where
  strict : arith.strict = true
  bits_le : arith.width.bits ≤ arith'.width.bits

namespace Arithmetic

variable {arith arith' : Arithmetic}

/-- What strict arithmetic accepts is accepted as it is by a relaxed one. -/
theorem Relaxes.toCell (h : arith.Relaxes arith') {value cell : Int} {location : Option Location}
    (hcell : arith.toCell value location = .ok cell) :
    arith'.toCell value location = .ok cell := by
  obtain ⟨hfits, rfl⟩ := (toCell_eq_ok_of_strict h.strict).mp hcell
  exact toCell_of_fits (Width.fits_mono h.bits_le hfits)

end Arithmetic

/-- The result of a binary operation is the same, if it fits. -/
theorem BinaryOp.exists_apply_of_relaxes {arith arith' : Arithmetic} (h : arith.Relaxes arith')
    {op : BinaryOp} {x y result cell : Int} {location : Option Location}
    (happly : op.apply arith.width x y = .ok result)
    (hcell : arith.toCell result location = .ok cell) :
    ∃ result', op.apply arith'.width x y = .ok result' ∧
      arith'.toCell result' location = .ok cell := by
  cases op with
  | shiftLeft =>
      rw [apply] at happly ⊢
      by_cases hneg : y < 0
      · rw [if_pos hneg] at happly
        cases happly
      · rw [if_neg hneg] at happly ⊢
        obtain rfl := Except.ok.inj happly
        refine ⟨_, rfl, ?_⟩
        by_cases hwide : y.toNat ≤ arith.width.bits
        · rw [min_eq_left (hwide.trans h.bits_le)]
          rw [min_eq_left hwide] at hcell
          exact h.toCell hcell
        · -- the clamped shift leaves the cell, unless it shifts zero
          rw [min_eq_right (by omega)] at hcell
          obtain ⟨hfits, rfl⟩ := (Arithmetic.toCell_eq_ok_of_strict h.strict).mp hcell
          obtain rfl := Width.eq_zero_of_fits_shiftUp le_rfl hfits
          simp only [Bitwise.shiftUp, zero_mul]
          exact Arithmetic.toCell_of_fits Width.fits_zero
  | add | sub | mul | and | or | xor => exact ⟨result, happly, h.toCell hcell⟩
  | div | mod | shiftRight | unknown _ => exact ⟨result, happly, h.toCell hcell⟩

/-- So a relaxed arithmetic accepts all that is needed. -/
theorem Arithmetic.Relaxes.accepts {arith arith' : Arithmetic} (h : arith.Relaxes arith') :
    arith.Accepts arith' :=
  ⟨h.bits_le, h.toCell, BinaryOp.exists_apply_of_relaxes h⟩

/-! ## Tables -/

namespace SymbolTable

variable {arith arith' : Arithmetic} {table table' : SymbolTable}

/-- The table with another arithmetic. -/
def withArith (arith : Arithmetic) (table : SymbolTable) : SymbolTable := { table with arith }

/-- A table with the first arithmetic, and the same one with the second. -/
structure Relaxed (arith arith' : Arithmetic) (table table' : SymbolTable) : Prop where
  arith_eq : table.arith = arith
  eq_withArith : table' = table.withArith arith'

/-- Relaxed tables have relaxed arithmetic. -/
theorem Relaxed.accepts (hrelaxes : arith.Relaxes arith') (h : Relaxed arith arith' table table') :
    table.arith.Accepts table'.arith := by
  rw [h.arith_eq, h.eq_withArith]
  exact hrelaxes.accepts

/-- The arithmetic is no part of what a table is asked for by name. -/
theorem lookup_relaxed (hrelaxes : arith.Relaxes arith') : Lookup (Relaxed arith arith') where
  accepts h := h.accepts hrelaxes
  bindings_eq h := by rw [h.eq_withArith]; rfl
  length_eq h := by rw [h.eq_withArith]; rfl
  find?_eq h name := by rw [h.eq_withArith]; rfl
  setValue h name value := ⟨h.arith_eq, by rw [h.eq_withArith]; rfl⟩

theorem Relaxed.withPool (h : Relaxed arith arith' table table') (pool : Pool) :
    Relaxed arith arith' { table with pool } { table' with pool } :=
  ⟨h.arith_eq, by rw [h.eq_withArith]; rfl⟩

theorem Relaxed.pool_eq (h : Relaxed arith arith' table table') : table'.pool = table.pool := by
  rw [h.eq_withArith]
  rfl

/-- A definition is accepted alike. -/
theorem Relaxed.define {symbol : Symbol} {defined : SymbolTable}
    (h : Relaxed arith arith' table table') (hdefine : table.define symbol = .ok defined) :
    ∃ defined', table'.define symbol = .ok defined' ∧ Relaxed arith arith' defined defined' := by
  obtain ⟨hnew, rfl⟩ := define_eq_ok.mp hdefine
  rw [h.eq_withArith]
  exact ⟨_, define_eq_ok.mpr ⟨hnew, rfl⟩, h.arith_eq, rfl⟩

/-- Everything the table is used for leads from relaxed tables to relaxed tables. -/
theorem simulation_relaxed (hrelaxes : arith.Relaxes arith') :
    Simulation (Relaxed arith arith') where
  accepts h := h.accepts hrelaxes
  pool_eq := Relaxed.pool_eq
  withPool := Relaxed.withPool
  define _ := Relaxed.define
  valueOf := (lookup_relaxed hrelaxes).follows_valueOf
  evaluate := (lookup_relaxed hrelaxes).follows_evaluate

end SymbolTable

/-! ## The stages together -/

open SymbolTable

/-- The limit on the size grows with the width and the bound. -/
theorem Layout.sizeLimit_mono {width width' : Width} {bound bound' : Int}
    (hbits : width.bits ≤ width'.bits) (hbound : bound ≤ bound') :
    sizeLimit width bound ≤ sizeLimit width' bound' := by
  have hmax := Width.max_mono hbits
  exact min_le_min hbound (by omega)

namespace Assembly

section Stages

variable {arith arith' : Arithmetic} {table table' : SymbolTable}

/-- The constants of the command line are accepted alike. -/
theorem definePredefined_relaxed {defines : Defines} {predefined : SymbolTable}
    (htables : Relaxed arith arith' table table')
    (h : definePredefined table defines = .ok predefined) :
    ∃ predefined', definePredefined table' defines = .ok predefined' ∧
      Relaxed arith arith' predefined predefined' := by
  induction defines generalizing table table' with
  | nil =>
      obtain rfl := Except.ok.inj h
      exact ⟨table', rfl, htables⟩
  | cons first rest ih =>
      obtain ⟨table₁, hfirst, hrest⟩ := bind_eq_ok.mp h
      obtain ⟨table₁', hfirst', htables₁⟩ := htables.define hfirst
      obtain ⟨predefined', hrest', hlast⟩ := ih htables₁ hrest
      exact ⟨predefined', bind_eq_ok.mpr ⟨_, hfirst', hrest'⟩, hlast⟩

/-- Mentions are noted alike. -/
theorem noteMentions_relaxed (statements : List Statement)
    (htables : Relaxed arith arith' table table') :
    Relaxed arith arith' (noteMentions table statements) (noteMentions table' statements) := by
  have hmentioned : table'.mentioned = table.mentioned := by rw [htables.eq_withArith]; rfl
  rw [noteMentions_congr rfl, noteMentions_congr hmentioned]
  exact ⟨htables.arith_eq, by rw [htables.eq_withArith]; rfl⟩

variable (hrelaxes : arith.Relaxes arith')

include hrelaxes

/-- The first pass is followed under a larger limit. -/
theorem follows_resolve_relaxed {limit limit' : Int} (hlimit : limit ≤ limit')
    (withEntryJump : Bool) (statements : List Statement) :
    Follows (Relaxed arith arith') (Layout.resolve limit withEntryJump statements)
      (Layout.resolve limit' withEntryJump statements) :=
  (Layout.follows_defineConstants (simulation_relaxed hrelaxes) statements).bind fun _ =>
    (Layout.follows_placeItems (simulation_relaxed hrelaxes) hlimit _ [] statements).bind
      fun _ => .ret _

/-- So is the check of the names. -/
theorem follows_checkNames_relaxed (statements : List Statement) :
    Follows (Relaxed arith arith') (checkNames statements) (checkNames statements) := by
  refine Follows.bind (.change fun _ _ => noteMentions_relaxed statements) fun _ => ?_
  refine .read fun table table' htables => ?_
  rw [htables.eq_withArith]
  refine Follows.bind (.lift fun _ hok => hok) fun _ => .read fun table table' htables => ?_
  rw [htables.eq_withArith]
  exact (lookup_relaxed hrelaxes).follows_resolveEach table.symbols

/-- The image is built alike, but for the width that it is labelled with. -/
theorem yields_buildImage_relaxed {config : Config} (config' : Config) {size tempBase : Int}
    {contents : List (Item × Content)} {final : SymbolTable} {image : Image}
    (htables : Relaxed arith arith' table table')
    (h : Yields (buildImage config size tempBase contents) table image final) :
    ∃ final', Yields (buildImage config' size tempBase contents) table'
      { image with cellBits := config'.cellBits } final' := by
  simp only [buildImage, yields_bind, yields_get, yields_liftM, yields_pure] at h ⊢
  obtain ⟨rows, _, hrows, _, _, ⟨hlisting, rfl⟩, _, _, ⟨rfl, rfl⟩, rfl, rfl⟩ := h
  obtain ⟨final', hrows', hfinal⟩ :=
    follows_itemsRows (simulation_relaxed hrelaxes) contents _ _ _ _ htables hrows
  refine ⟨final', rows, final', hrows', _, _, ⟨hlisting, rfl⟩, _, _, ⟨rfl, rfl⟩, ?_, rfl⟩
  rw [hfinal.eq_withArith]
  rfl

end Stages

variable {config config' : Config} {defines : Defines} {source file : String} {image : Image}

/-- The arithmetic is as strict as the configuration says. -/
theorem Prepared.strict_eq (P : Prepared config defines source file) :
    P.arith.strict = config.strict := by
  have h := P.arithmetic_eq
  unfold arithmetic at h
  split at h
  · rw [← Except.ok.inj h]
  · cases h

/-- The options ask for cells that are at least as wide. -/
theorem exists_arithmetic (P : Prepared config defines source file) (hstrict : config.strict = true)
    (hbits : config.cellBits ≤ config'.cellBits) :
    ∃ arith', arithmetic config' = .ok arith' ∧ P.arith.Relaxes arith' := by
  have heq : (P.arith.width.bits : Int) = config.cellBits := P.bits_eq
  have htwo := P.arith.width.two_le_bits
  refine ⟨⟨⟨config'.cellBits.toNat, by omega⟩, config'.strict⟩, ?_,
    P.strict_eq.trans hstrict, ?_⟩
  · unfold arithmetic Width.ofInt?
    rw [dif_pos (by omega)]
  · show P.arith.width.bits ≤ config'.cellBits.toNat
    omega

/-- All stages of a strict assembly succeed in the same way with relaxed options. -/
theorem Stages.relax (S : Stages config defines source file image) (hstrict : config.strict = true)
    (hbits : config.cellBits ≤ config'.cellBits)
    (hsize : config.maxImageSize ≤ config'.maxImageSize)
    (hjump : config'.entryJump = config.entryJump) :
    ∃ S' : Stages config' defines source file { image with cellBits := config'.cellBits },
      S'.layout = S.layout := by
  -- wider cells and larger limits accept all that the strict ones do
  obtain ⟨arith', harithmetic, hrelaxes⟩ := exists_arithmetic S.toPrepared hstrict hbits
  have hlimit : Layout.sizeLimit S.arith.width config.maxImageSize ≤
      Layout.sizeLimit arith'.width config'.maxImageSize :=
    Layout.sizeLimit_mono hrelaxes.bits_le hsize
  have hR := simulation_relaxed hrelaxes
  have hempty : Relaxed S.arith arith' (empty S.arith) (empty arith') := ⟨rfl, rfl⟩
  -- the stages are followed one by one, with tables that differ in their arithmetic only
  obtain ⟨predefined', hpredefined', htables⟩ := definePredefined_relaxed hempty S.predefined_eq
  obtain ⟨placed', hresolve', htables⟩ := follows_resolve_relaxed hrelaxes hlimit config.entryJump
    S.statements _ _ _ _ htables S.resolve
  obtain ⟨checked', hcheck', htables⟩ :=
    follows_checkNames_relaxed hrelaxes S.statements _ _ _ _ htables S.check
  obtain ⟨expanded', hexpand', htables⟩ :=
    Item.follows_contents hR S.layout.items _ _ _ _ htables S.expand
  have hplace : ∀ {table table'}, Relaxed S.arith arith' table table' → ∀ base,
      Relaxed S.arith arith' (table.placePool base) (table'.placePool base) :=
    fun h => (lookup_relaxed hrelaxes).placePool Relaxed.withPool h h.pool_eq
  obtain ⟨stored', hstore', hlayout, htables⟩ := Layout.follows_placeStorage hR hplace hlimit
    (S.layout, S.expanded) (S.layout, expanded') _ _ ⟨rfl, htables⟩ S.store
  obtain ⟨final', hbuild'⟩ := yields_buildImage_relaxed hrelaxes config' htables S.build
  rw [← hjump] at hresolve'
  exact ⟨⟨⟨S.statements, arith', S.layout, S.contents, S.size, predefined', placed', checked',
    expanded', stored', S.parse_eq, harithmetic, hpredefined', hresolve', hcheck', hexpand',
    hstore'⟩, final', hbuild'⟩, rfl⟩

/-! ## Room -/

/-- The items that the second pass starts from are those of the layout. -/
theorem Prepared.placed_eq (P : Prepared config defines source file) :
    Assembly.placed config defines source file = .ok (P.layout.items, P.checked) :=
  placed_eq_ok.mpr ⟨P.statements, P.arith, P.predefined, P.layout, P.placed, P.parse_eq,
    P.arithmetic_eq, P.predefined_eq, P.resolve, P.check, rfl⟩

/-- There is room for the items if there is room for each. -/
theorem checkItems_eq_ok {items : List Item} (table : SymbolTable)
    (h : ∀ item ∈ items, (item.size : Int) < Capacity.cellBound) :
    checkItems items table = .ok () := by
  induction items generalizing table with
  | nil => rfl
  | cons item rest ih =>
      have hfirst : Capacity.checkMemory 0 item.size = .ok () := by
        have hsize := h item (by simp)
        rw [Capacity.checkMemory, if_neg (by omega)]
      simp only [checkItems, bind_eq_ok]
      refine ⟨(), hfirst, ?_⟩
      split
      · exact ih _ fun item hmem => h item (by simp [hmem])
      · rfl

/-- There was room for each of the items that have contents. -/
theorem size_lt_of_checkItems {items : List Item} {table table' : SymbolTable}
    {contents : List (Item × Content)} (h : checkItems items table = .ok ())
    (hcontents : Yields (Item.contents items) table contents table') :
    ∀ item ∈ items, (item.size : Int) < Capacity.cellBound := by
  -- by induction on the items, which are checked as they are expanded
  induction items generalizing table contents with
  | nil => simp
  | cons first rest ih =>
      simp only [Item.contents, yields_bind, yields_pure] at hcontents
      obtain ⟨content, table₁, hfirst, others, _, hothers, rfl, rfl⟩ := hcontents
      simp only [checkItems, bind_eq_ok] at h
      obtain ⟨_, hmemory, hrest⟩ := h
      rw [show first.content.run table = (.ok content, table₁) from hfirst] at hrest
      intro item hmem
      rcases List.mem_cons.mp hmem with rfl | hmem
      · unfold Capacity.checkMemory at hmemory
        split at hmemory
        · cases hmemory
        · next hle => omega
      · exact ih hrest hothers item hmem

/-- The items of an image that there was room for are not too large. -/
theorem Stages.size_lt_cellBound (S : Stages config defines source file image)
    (h : checkCells config defines source file = .ok ()) :
    ∀ item ∈ S.layout.items, (item.size : Int) < Capacity.cellBound := by
  unfold checkCells at h
  by_cases hsmall : config.maxImageSize < Capacity.cellBound
  · intro item hmem
    have hend := (S.covers.contiguous.bounds hmem).2
    have hlt := S.itemsEnd_lt_size
    have hle : S.size ≤ config.maxImageSize := S.size_le.trans (min_le_left _ _)
    unfold Item.endAddress at hend
    omega
  · rw [if_neg hsmall, S.placed_eq] at h
    exact size_lt_of_checkItems h S.expand

/-- There is room for the cells if there is room for those of each item. -/
theorem Stages.checkCells_eq_ok (S : Stages config defines source file image)
    (h : ∀ item ∈ S.layout.items, (item.size : Int) < Capacity.cellBound) :
    checkCells config defines source file = .ok () := by
  unfold checkCells
  rw [S.placed_eq]
  split
  · rfl
  · exact checkItems_eq_ok _ h

end Assembly

/-- There is room if there is room for numbers and for cells. -/
theorem checkRoom_eq_ok {config : Config} {defines : Defines} {source file : String} :
    config.checkRoom defines source file = .ok () ↔ config.checkCapacity source file = .ok () ∧
      Assembly.checkCells config defines source file = .ok () := by
  unfold Config.checkRoom
  rw [bind_eq_ok]
  constructor
  · rintro ⟨_, hwidth, hcells⟩
    exact ⟨hwidth, hcells⟩
  · rintro ⟨hwidth, hcells⟩
    exact ⟨(), hwidth, hcells⟩

/-- An attempt succeeds if there is room and assembly succeeds. -/
theorem attempt_eq_ok {config : Config} {defines : Defines} {source file : String}
    {image : Image} :
    attempt config defines source file = .ok image ↔
      config.checkRoom defines source file = .ok () ∧
        assemble config defines source file = .ok image := by
  unfold attempt
  cases config.checkRoom defines source file with
  | error fault =>
      constructor
      · intro h
        cases h
      · rintro ⟨h, -⟩
        cases h
  | ok _ =>
      cases assemble config defines source file with
      | error fault =>
          constructor
          · intro h
            cases h
          · rintro ⟨-, h⟩
            cases h
      | ok image' =>
          constructor
          · intro h
            exact ⟨rfl, congrArg Except.ok (Except.ok.inj h)⟩
          · rintro ⟨-, h⟩
            cases h
            rfl

/-- Only cells of too many digits keep a source that can be read from being tried. -/
theorem checkCapacity_of_parse {config : Config} {source file : String}
    {statements : List Statement} (hparse : Statement.parse source file = .ok statements) :
    config.checkCapacity source file =
      if Capacity.digitBound < config.cellBits then .error .digits else .ok () := by
  unfold Config.checkCapacity Capacity.checkWidth
  rw [hparse]
  by_cases hwide : Capacity.digitBound < config.cellBits
  · rw [if_pos hwide]
    rfl
  · rw [if_neg hwide]

/-- A strict assembly that succeeds gives the same image, up to the width, with wider cells, a larger
bound and either way of bringing values into cells.  There is room for that too, if there was room
before, unless the cells have too many digits. -/
theorem attempt_relax {config config' : Config} {defines : Defines} {source file : String}
    {image : Image} (hstrict : config.strict = true) (hbits : config.cellBits ≤ config'.cellBits)
    (hsize : config.maxImageSize ≤ config'.maxImageSize)
    (hjump : config'.entryJump = config.entryJump)
    (h : assemble config defines source file = .ok image) :
    assemble config' defines source file = .ok { image with cellBits := config'.cellBits } ∧
      (attempt config defines source file = .ok image →
        attempt config' defines source file =
          if Capacity.digitBound < config'.cellBits then .error (.capacity .digits)
          else .ok { image with cellBits := config'.cellBits }) := by
  obtain ⟨S⟩ := Assembly.nonempty_stages h
  obtain ⟨S', hlayout⟩ := S.relax hstrict hbits hsize hjump
  have hassemble := Assembly.assemble_of_stages S'
  refine ⟨hassemble, fun hattempt => ?_⟩
  -- the first attempt has had room for its cells, and the layout is the same
  obtain ⟨-, hcells⟩ := checkRoom_eq_ok.mp (attempt_eq_ok.mp hattempt).1
  have hcells' : Assembly.checkCells config' defines source file = .ok () := by
    apply S'.checkCells_eq_ok
    rw [hlayout]
    exact S.size_lt_cellBound hcells
  have hcapacity : config'.checkCapacity source file =
      if Capacity.digitBound < config'.cellBits then .error .digits else .ok () :=
    checkCapacity_of_parse S.parse_eq
  -- only the number of digits can be too large for the wider cells
  by_cases hwide : Capacity.digitBound < config'.cellBits
  · rw [if_pos hwide] at hcapacity ⊢
    unfold attempt Config.checkRoom
    rw [hcapacity]
    rfl
  · rw [if_neg hwide] at hcapacity ⊢
    exact attempt_eq_ok.mpr ⟨checkRoom_eq_ok.mpr ⟨hcapacity, hcells'⟩, hassemble⟩

/-- The strict options for a program. -/
def strictSumConfig : Config := { Assembly.sumConfig with strict := true }

/-- Wider cells and more of them. -/
def relaxedSumConfig : Config := { cellBits := 40, maxImageSize := 1000000 }

/-- The program is the same with both. -/
theorem attempt_relax_sum :
    ∃ image, attempt strictSumConfig [("k", 7)] Assembly.sumSource "sum" = .ok image ∧
      attempt relaxedSumConfig [("k", 7)] Assembly.sumSource "sum" =
        .ok { image with cellBits := relaxedSumConfig.cellBits } := by
  have hok : (attempt strictSumConfig [("k", 7)] Assembly.sumSource "sum").isOk = true := by
    decide +kernel
  have hbits : strictSumConfig.cellBits ≤ relaxedSumConfig.cellBits := by decide
  have hsize : strictSumConfig.maxImageSize ≤ relaxedSumConfig.maxImageSize := by decide
  have hnarrow : ¬ Capacity.digitBound < relaxedSumConfig.cellBits := by decide +kernel
  cases h : attempt strictSumConfig [("k", 7)] Assembly.sumSource "sum" with
  | error failure =>
      rw [h] at hok
      cases hok
  | ok image =>
      have hrelax := (attempt_relax rfl hbits hsize rfl (attempt_eq_ok.mp h).2).2 h
      rw [if_neg hnarrow] at hrelax
      exact ⟨image, rfl, hrelax⟩

/-- Cells of more bits than there can be digits. -/
def wideConfig : Config := { cellBits := 1000000000000000000000000000000 }

/-- An empty program is assembled strictly, but not for cells that there is no room for. -/
theorem attempt_relax_wide :
    (∃ image, attempt { strict := true } [] "" "<input>" = .ok image) ∧
      ({ strict := true } : Config).cellBits ≤ wideConfig.cellBits ∧
      ({ strict := true } : Config).maxImageSize ≤ wideConfig.maxImageSize ∧
      wideConfig.entryJump = ({ strict := true } : Config).entryJump ∧
      attempt wideConfig [] "" "<input>" = .error (.capacity .digits) := by
  refine ⟨?_, by decide, by decide, rfl, ?_⟩
  · have hok : (attempt { strict := true } [] "" "<input>").isOk = true := by decide +kernel
    cases h : attempt { strict := true } [] "" "<input>" with
    | error failure =>
        rw [h] at hok
        cases hok
    | ok image => exact ⟨image, rfl⟩
  · have hroom : wideConfig.checkRoom [] "" "<input>" = .error .digits := by decide +kernel
    unfold attempt
    rw [hroom]
    rfl

end Subleq
