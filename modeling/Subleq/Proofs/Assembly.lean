import Subleq.Proofs.Image

/-!
# Assembly as a whole

`Assembly.Stages` is an assembly that succeeded, with what every stage of it returned and the table
that it left; `Assembly.Prepared` is one of which all stages but the last are known to succeed.  The
theorems about them say what the stages together come to, all of them in the environment of the last
table, which is that of the image: the layout covers the program (`Prepared.covers`), every constant
has the value of its definition (`Prepared.eval_definition`), the rows of every item hold what the
item stands for (`Stages.shown`), and the rows tile the image (`Stages.tile_listing`,
`Stages.cells_eq`).

All of it rests on one range of values, `imageRange`, for which the size of the finished image has
to be known.  So the size comes first, from the last stage but one, and the tables are then shown to
be sound from the first one on.
-/

namespace Subleq

open Folding

namespace Assembly

/-! ## Stages -/

/-- A stage reports nothing by itself. -/
@[simp]
theorem yields_stage {σ α : Type} {m : Folding σ α} {state state' : σ} {a : α}
    {reports reports' : List Progress} :
    Yields (stage m state) reports (a, state') reports' ↔
      Yields m state a state' ∧ reports = reports' := by
  rw [stage]
  cases hrun : m.run state with
  | mk result rest =>
      cases result with
      | error fault =>
          constructor
          · intro h
            exact absurd h yields_throw
          · rintro ⟨h, -⟩
            rw [Yields, hrun] at h
            cases h
      | ok b =>
          show Yields (pure (b, rest)) reports (a, state') reports' ↔ _
          rw [yields_pure, Yields, hrun]
          constructor
          · rintro ⟨heq, rfl⟩
            cases heq
            exact ⟨rfl, rfl⟩
          · rintro ⟨heq, rfl⟩
            cases heq
            exact ⟨rfl, rfl⟩

/-- A report is added to those before it. -/
@[simp]
theorem yields_report {progress : Progress} {reports reports' : List Progress} {u : Unit} :
    Yields (report progress) reports u reports' ↔ reports ++ [progress] = reports' :=
  yields_modify

/-- The stages of an assembly up to the places of the storage, with the tables that they leave. -/
structure Prepared (config : Config) (defines : Defines) (source file : String) where
  statements : List Statement
  arith : Arithmetic
  layout : Layout
  contents : List (Item × Content)
  size : Int
  predefined : SymbolTable
  placed : SymbolTable
  checked : SymbolTable
  expanded : SymbolTable
  stored : Layout × SymbolTable
  parse_eq : Statement.parse source file = .ok statements
  arithmetic_eq : arithmetic config = .ok arith
  predefined_eq : definePredefined (SymbolTable.empty arith) defines = .ok predefined
  resolve : Yields (Layout.resolve (Layout.sizeLimit arith.width config.maxImageSize)
    config.entryJump statements) predefined layout placed
  check : Yields (checkNames statements) placed () checked
  expand : Yields (Item.contents layout.items) checked contents expanded
  store : Yields (Layout.placeStorage (Layout.sizeLimit arith.width config.maxImageSize))
    (layout, expanded) size stored

/-- The stages of an assembly that succeeds. -/
structure Stages (config : Config) (defines : Defines) (source file : String) (image : Image)
    extends Prepared config defines source file where
  final : SymbolTable
  build : Yields (buildImage config size (size - Temp.all.length) contents) stored.2 image final

/-- The width of the arithmetic is the one that is asked for. -/
theorem ofInt?_of_arithmetic {config : Config} {arith : Arithmetic}
    (h : arithmetic config = .ok arith) : Width.ofInt? config.cellBits = some arith.width := by
  rw [arithmetic] at h
  split at h
  · next width hwidth =>
    rw [← Except.ok.inj h]
    exact hwidth
  · cases h

/-- The layout that the first pass gives to a source text. -/
def firstPass (config : Config) (defines : Defines) (source file : String) :
    Except Fault Layout := do
  let statements ← Statement.parse source file
  let arith ← arithmetic config
  let table ← definePredefined (SymbolTable.empty arith) defines
  let limit := Layout.sizeLimit arith.width config.maxImageSize
  ((Layout.resolve limit config.entryJump statements).run table).1

/-- An assembly that succeeds went through all stages. -/
theorem nonempty_stages {config : Config} {defines : Defines} {source file : String} {image : Image}
    (h : assemble config defines source file = .ok image) :
    Nonempty (Stages config defines source file image) := by
  rw [assemble, run] at h
  cases hrun : (ofSource config defines source file).run [] with
  | mk result reports =>
  rw [hrun] at h
  cases result with
  | error fault => cases h
  | ok built =>
  cases h
  have hyields : Yields (ofSource config defines source file) [] image reports := hrun
  -- a successful run passes through the stages one by one, with the reports in between
  simp only [ofSource, ofStatements, yields_bind, yields_liftM, yields_report, yields_pure]
    at hyields
  obtain ⟨statements, _, ⟨hparse, rfl⟩, _, _, -, built, _, ⟨arith, _, ⟨harith, rfl⟩, predefined, _,
    ⟨hpredefined, rfl⟩, ⟨layout, placed⟩, _, hresolve, _, _, -, ⟨_, checked⟩, _, hcheck,
    ⟨contents, expanded⟩, _, hexpand, _, _, -, ⟨size, layout', stored⟩, _, hstore, _, _, -,
    ⟨_, final⟩, _, hbuild, rfl, -⟩, _, _, -, rfl, -⟩ := hyields
  rw [yields_stage] at hresolve hcheck hexpand hstore hbuild
  exact ⟨⟨⟨statements, arith, layout, contents, size, predefined, placed, checked, expanded,
    (layout', stored), hparse, harith, hpredefined, hresolve.1, hcheck.1, hexpand.1,
    hstore.1⟩, final, hbuild.1⟩⟩

/-- The stages before the second pass. -/
theorem placed_eq_ok {config : Config} {defines : Defines} {source file : String}
    {items : List Item} {table : SymbolTable} :
    placed config defines source file = .ok (items, table) ↔
      ∃ statements arith predefined layout resolved,
        Statement.parse source file = .ok statements ∧ arithmetic config = .ok arith ∧
        definePredefined (SymbolTable.empty arith) defines = .ok predefined ∧
        Yields (Layout.resolve (Layout.sizeLimit arith.width config.maxImageSize)
          config.entryJump statements) predefined layout resolved ∧
        Yields (checkNames statements) resolved () table ∧ layout.items = items := by
  -- the last two stages work on one state, and the layout is all that is kept of them
  have hplace : ∀ {arith : Arithmetic} {statements predefined},
      Yields (do
        let layout ← Layout.resolve (Layout.sizeLimit arith.width config.maxImageSize)
          config.entryJump statements
        checkNames statements
        pure layout.items) predefined items table ↔
      ∃ layout resolved, Yields (Layout.resolve (Layout.sizeLimit arith.width config.maxImageSize)
          config.entryJump statements) predefined layout resolved ∧
        Yields (checkNames statements) resolved () table ∧ layout.items = items := by
    intro arith statements predefined
    simp only [yields_bind, yields_pure]
    constructor
    · rintro ⟨layout, resolved, hresolve, _, _, hcheck, hitems, rfl⟩
      exact ⟨layout, resolved, hresolve, hcheck, hitems⟩
    · rintro ⟨layout, resolved, hresolve, hcheck, hitems⟩
      exact ⟨layout, resolved, hresolve, (), table, hcheck, hitems, rfl⟩
  simp only [placed, bind_eq_ok]
  constructor
  · rintro ⟨statements, hparse, arith, harith, predefined, hpredefined, h⟩
    split at h
    · next hrun =>
      cases h
      obtain ⟨layout, resolved, hrest⟩ := hplace.mp hrun
      exact ⟨statements, arith, predefined, layout, resolved, hparse, harith, hpredefined, hrest⟩
    · cases h
  · rintro ⟨statements, arith, predefined, layout, resolved, hparse, harith, hpredefined, hrest⟩
    refine ⟨statements, hparse, arith, harith, predefined, hpredefined, ?_⟩
    have hrun := hplace.mpr ⟨layout, resolved, hrest⟩
    unfold Yields at hrun
    rw [hrun]

/-- The result of a computation, whatever was reported before it. -/
def Gives {α : Type} (m : Reporting α) (a : α) : Prop :=
  ∀ reports, ∃ reports', Yields m reports a reports'

namespace Gives

variable {α β : Type}

theorem ret (a : α) : Gives (pure a) a := fun reports => ⟨reports, yields_pure.mpr ⟨rfl, rfl⟩⟩

/-- Steps give their results one after the other. -/
theorem bind {m : Reporting α} {f : α → Reporting β} {a : α} {b : β} (hm : Gives m a)
    (hf : Gives (f a) b) : Gives (m >>= f) b := by
  intro reports
  obtain ⟨reports₁, hfirst⟩ := hm reports
  obtain ⟨reports₂, hrest⟩ := hf reports₁
  exact ⟨reports₂, yields_bind.mpr ⟨a, reports₁, hfirst, hrest⟩⟩

/-- A check that passes gives its result. -/
theorem lift {x : Except Fault α} {a : α} (h : x = .ok a) : Gives (liftM x) a :=
  fun reports => ⟨reports, yields_liftM.mpr ⟨h, rfl⟩⟩

theorem report (progress : Progress) : Gives (report progress) () :=
  fun _ => ⟨_, yields_report.mpr rfl⟩

/-- A stage gives its result together with the state that it ends in. -/
theorem stage {σ : Type} {m : Folding σ α} {state state' : σ} {a : α}
    (h : Yields m state a state') : Gives (stage m state) (a, state') :=
  fun reports => ⟨reports, yields_stage.mpr ⟨h, rfl⟩⟩

end Gives

/-- Stages that fit together make an assembly succeed. -/
theorem assemble_of_stages {config : Config} {defines : Defines} {source file : String}
    {image : Image} (S : Stages config defines source file image) :
    assemble config defines source file = .ok image := by
  have hstatements : Gives (ofStatements config defines S.statements) image :=
    (Gives.lift S.arithmetic_eq).bind <| (Gives.lift S.predefined_eq).bind <|
      (Gives.stage S.resolve).bind <| (Gives.report _).bind <| (Gives.stage S.check).bind <|
      (Gives.stage S.expand).bind <| (Gives.report _).bind <| (Gives.stage S.store).bind <|
      (Gives.report _).bind <| (Gives.stage S.build).bind <| Gives.ret image
  have hsource : Gives (ofSource config defines source file) image :=
    (Gives.lift S.parse_eq).bind <| (Gives.report _).bind <| hstatements.bind <|
      (Gives.report _).bind <| Gives.ret image
  obtain ⟨reports, hyields⟩ := hsource []
  unfold assemble run
  rw [show (ofSource config defines source file).run [] = (.ok image, reports) from hyields]

/-! ## Names -/

/-- The constants of a program with their definitions, the predefined ones first. -/
def definitions (defines : Defines) (statements : List Statement) : List (String × Expr) :=
  defines.map (fun pair => (pair.1, .num pair.2 (some .predefined))) ++
    statements.filterMap fun
      | .constant _ name value _ => some (name, value)
      | _ => none

section Names

open SymbolTable

variable {width : Width} {range : ValueRange width} {table table' : SymbolTable}

/-- The constants of the command line grow a sound table, and are constants in it. -/
theorem definePredefined_sound {defines : Defines} (hsound : Sound range table)
    (h : definePredefined table defines = .ok table') :
    Grows range table table' ∧ ∀ pair ∈ defines,
      table'.HasConstant pair.1 (.num pair.2 (some .predefined)) := by
  induction defines generalizing table with
  | nil =>
      obtain rfl := Except.ok.inj h
      exact ⟨.refl hsound, by simp⟩
  | cons first rest ih =>
      rw [definePredefined] at h
      cases hdefine : table.defineConstant first.1 (.num first.2 (some .predefined))
          (some .predefined) with
      | error fault =>
          rw [hdefine] at h
          cases h
      | ok table₁ =>
          rw [hdefine] at h
          obtain ⟨hgrows₁, hfirst⟩ := defineConstant_sound hsound hdefine
          obtain ⟨hgrows, hrest⟩ := ih hgrows₁.sound h
          refine ⟨hgrows₁.trans hgrows, fun pair hmem => ?_⟩
          rcases List.mem_cons.mp hmem with rfl | hmem
          · exact hfirst.mono hgrows.toExtends
          · exact hrest pair hmem

/-- Noting what a program mentions changes nothing else. -/
theorem noteMentions_eq (table : SymbolTable) (statements : List Statement) :
    ∃ mentioned, noteMentions table statements = { table with mentioned } := by
  rw [noteMentions]
  induction mentions statements generalizing table with
  | nil => exact ⟨table.mentioned, rfl⟩
  | cons first rest ih =>
      obtain ⟨name, place⟩ := first
      have hfirst : ∃ mentioned, table.mention name place = { table with mentioned } := by
        rw [mention]
        split
        · exact ⟨table.mentioned, rfl⟩
        · exact ⟨_, rfl⟩
      obtain ⟨mentioned, heq⟩ := hfirst
      obtain ⟨mentioned', hrest⟩ := ih (table.mention name place)
      refine ⟨mentioned', hrest.trans ?_⟩
      rw [heq]

/-- After the names have been checked, every constant has a value. -/
theorem checkNames_sound {statements : List Statement} {u : Unit} (hsound : Sound range table)
    (h : Yields (checkNames statements) table u table') :
    Grows range table table' ∧ ∀ name definition, table.HasConstant name definition →
      ∃ value, table'.value? name = some value := by
  simp only [checkNames, yields_bind, yields_modify, yields_get, yields_liftM] at h
  obtain ⟨_, noted, hnoted, _, _, ⟨rfl, rfl⟩, _, _, ⟨-, rfl⟩, h⟩ := h
  obtain ⟨mentioned, heq⟩ := noteMentions_eq table statements
  rw [heq] at hnoted
  subst hnoted
  have hsound₁ : Sound range { table with mentioned } := hsound.of_symbols rfl rfl rfl
  obtain ⟨hsound', hfolds, hvalues⟩ := resolveAll_sound hsound₁ h
  have hextends : Extends table { table with mentioned } := .of_symbols rfl rfl
  refine ⟨⟨hsound', hextends.trans hfolds.toExtends, hfolds.pool_eq⟩, ?_⟩
  rintro name definition ⟨symbol, hfind, hkind, -⟩
  have hmem : symbol ∈ table.symbols := List.mem_of_find?_eq_some hfind
  have hname := name_of_find? hfind
  subst hname
  exact hvalues symbol hmem hkind

end Names

/-! ## The range of values -/

/-- The values of the symbols of an image whose items end at `itemsEnd`. -/
def imageRange (width : Width) (itemsEnd : Nat) (size : Int) (hend : itemsEnd < size)
    (hsize : size ≤ width.max + 1) : ValueRange width where
  Holds
    | .label, value => 0 ≤ value ∧ value ≤ itemsEnd
    | .constant, value => width.Fits value
    | .literal, value | .temp, value => itemsEnd ≤ value ∧ value < size
  constant h := h
  fits := by
    intro kind value h
    cases kind with
    | constant => exact h
    | label => exact Width.fits_of_nonneg h.1 (by have := h.2; omega)
    | literal | temp => exact Width.fits_of_nonneg (by have := h.1; omega) (by have := h.2; omega)

/-! ## What the stages come to -/

namespace Prepared

variable {config : Config} {defines : Defines} {source file : String}
  (S : Prepared config defines source file)

def width : Width := S.arith.width

def values : List Int := S.expanded.pool.values

def table : SymbolTable := S.stored.2

/-- What slots stand for in the image. -/
def cell : Slot → Option Int :=
  Slot.cell? S.table.value? (OrderedMap.get? (Pool.located S.layout.itemsEnd S.values))

/-- The width of the stages is that of the configuration. -/
theorem ofInt?_cellBits : Width.ofInt? config.cellBits = some S.width :=
  ofInt?_of_arithmetic S.arithmetic_eq

theorem bits_eq : (S.width.bits : Int) = config.cellBits := Width.bits_of_ofInt? S.ofInt?_cellBits

/-- The layout of the stages is the one of the first pass. -/
theorem firstPass_eq : firstPass config defines source file = .ok S.layout := by
  have hresolve := S.resolve
  rw [Yields] at hresolve
  rw [firstPass, S.parse_eq]
  show (arithmetic config >>= _) = _
  rw [S.arithmetic_eq]
  show (definePredefined (SymbolTable.empty S.arith) defines >>= _) = _
  rw [S.predefined_eq]
  show ((Layout.resolve _ config.entryJump S.statements).run S.predefined).1 = _
  rw [hresolve]

/-- The image consists of the items, one cell for each pooled literal, and the temp fields. -/
theorem size_eq : S.size = S.layout.itemsEnd + S.values.length + Temp.all.length := by
  obtain ⟨_, _, -, hsize, -⟩ := Layout.yields_placeStorage S.store
  exact hsize

/-- The image is no larger than the configuration allows. -/
theorem size_le : S.size ≤ Layout.sizeLimit S.width config.maxImageSize := by
  obtain ⟨_, _, -, -, hsize⟩ := Layout.yields_placeStorage S.store
  exact hsize

/-- Every address of the image fits into a cell, and so would all but the one after the last. -/
theorem size_le_max : S.size ≤ S.width.max + 1 := le_trans S.size_le (min_le_right _ _)

/-- There is something after the items, if only temp fields. -/
theorem itemsEnd_lt_size : S.layout.itemsEnd < S.size := by
  have hlength : Temp.all.length = 3 := rfl
  rw [S.size_eq, hlength]
  omega

/-- The range of the values of the image. -/
def range : ValueRange S.width :=
  imageRange S.width S.layout.itemsEnd S.size S.itemsEnd_lt_size S.size_le_max

/-- Up to the constants of the command line the table is sound. -/
theorem predefined_sound :
    SymbolTable.Grows S.range (SymbolTable.empty S.arith) S.predefined ∧ ∀ pair ∈ defines,
      S.predefined.HasConstant pair.1 (.num pair.2 (some .predefined)) :=
  definePredefined_sound (.empty S.range) S.predefined_eq

/-- After the first pass the items cover the program, and the constants and labels of the program
are in the table. -/
theorem placed_sound :
    SymbolTable.Grows S.range (SymbolTable.empty S.arith) S.placed ∧
      S.layout.Covers S.width S.placed.value? config.entryJump S.statements ∧
      (∀ pair ∈ definitions defines S.statements, S.placed.HasConstant pair.1 pair.2) ∧
      ∀ name location, .label name location ∈ S.statements →
        ∃ value : Nat, S.placed.value? name = some (value : Int) ∧ value ≤ S.layout.itemsEnd := by
  obtain ⟨hgrows₁, hpredefined⟩ := S.predefined_sound
  have hlabels : ∀ label : Nat, label ≤ S.layout.itemsEnd → S.range.Holds .label label :=
    fun label hle => ⟨by omega, by exact_mod_cast hle⟩
  obtain ⟨hgrows₂, hcovers, hconstants, hnames⟩ :=
    Layout.resolve_sound hlabels hgrows₁.sound S.resolve
  refine ⟨hgrows₁.trans hgrows₂, hcovers, fun pair hmem => ?_, hnames⟩
  -- a constant comes from the command line or from the source
  rcases List.mem_append.mp hmem with hmem | hmem
  · obtain ⟨given, hgiven, rfl⟩ := List.mem_map.mp hmem
    exact (hpredefined given hgiven).mono hgrows₂.toExtends
  · obtain ⟨statement, hstatement, heq⟩ := List.mem_filterMap.mp hmem
    cases statement with
    | constant keyword name value location =>
        obtain rfl := Option.some.inj heq
        exact hconstants keyword name value location hstatement
    | label _ _ | item _ _ => cases heq

/-- After the names have been checked every constant has a value. -/
theorem checked_sound :
    SymbolTable.Grows S.range S.placed S.checked ∧
      ∀ pair ∈ definitions defines S.statements, ∃ value, S.checked.value? pair.1 = some value := by
  obtain ⟨hgrows, -, hconstants, -⟩ := S.placed_sound
  obtain ⟨hgrows', hvalues⟩ := checkNames_sound hgrows.sound S.check
  exact ⟨hgrows', fun pair hmem => hvalues pair.1 pair.2 (hconstants pair hmem)⟩

/-- The pool is empty before the second pass. -/
theorem checked_pool : S.checked.pool = Pool.empty :=
  S.checked_sound.1.pool_eq.trans S.placed_sound.1.pool_eq

/-- Up to the end of the items, every number is an address. -/
theorem fits_of_le_itemsEnd {address : Nat} (h : address ≤ S.layout.itemsEnd) :
    S.width.Fits address := by
  have hlt := S.itemsEnd_lt_size
  have hsize := S.size_le_max
  exact Width.fits_of_nonneg (by omega) (by omega)

/-- The second pass turns each item into its content, and pools the literals of all contents in
their order. -/
theorem expanded_sound :
    S.contents.map Prod.fst = S.layout.items ∧
      SymbolTable.Interns S.range ((S.contents.flatMap (·.2.literals)).map S.width.wrap) S.checked
        S.expanded ∧
      ∀ env, S.expanded.value?.Le env → ∀ pair ∈ S.contents, pair.1.Becomes S.width env pair.2 :=
  Item.contents_sound S.placed_sound.2.1.sizes (fun _ hmem =>
      S.fits_of_le_itemsEnd (S.placed_sound.2.1.contiguous.bounds hmem).2)
    S.checked_sound.1.sound (.of_empty S.checked_pool) S.expand

/-- After the storage has been placed, the pool has its addresses and the temp fields have
theirs. -/
theorem stored_sound :
    SymbolTable.Sound S.range S.table ∧ SymbolTable.Extends S.expanded S.table ∧
      S.table.pool = S.expanded.pool.place S.layout.itemsEnd ∧
      ∀ pair ∈ tempCells (S.size - Temp.all.length) Temp.all,
        S.table.value? pair.1 = some pair.2 := by
  obtain ⟨-, hinterns, -⟩ := S.expanded_sound
  have hpool : ∀ address : Int, S.layout.itemsEnd ≤ address →
      address < S.layout.itemsEnd + S.values.length → S.range.Holds .literal address := by
    intro address hlow hhigh
    exact ⟨hlow, by rw [S.size_eq]; omega⟩
  have htemps : ∀ address : Int, S.layout.itemsEnd + S.values.length ≤ address →
      address < S.size → S.range.Holds .temp address :=
    fun address hlow hhigh => ⟨by omega, hhigh⟩
  exact Layout.placeStorage_sound hpool htemps hinterns.sound hinterns.pooled S.store

/-- No value that has been found is lost up to the end. -/
theorem checked_extends : SymbolTable.Extends S.checked S.table :=
  S.expanded_sound.2.1.toExtends.trans S.stored_sound.2.1

/-- The layout covers the program in the environment of the image. -/
theorem covers : S.layout.Covers S.width S.table.value? config.entryJump S.statements :=
  S.placed_sound.2.1.mono (S.checked_sound.1.toExtends.trans S.checked_extends).le

/-- Every constant has the value of its definition. -/
theorem eval_definition {name : String} {definition : Expr}
    (h : (name, definition) ∈ definitions defines S.statements) :
    ∃ value, S.table.value? name = some value ∧
      definition.eval S.width S.table.value? none = some value := by
  obtain ⟨value, hvalue⟩ := S.checked_sound.2 _ h
  have hvalue' := S.checked_extends.le _ _ hvalue
  have hconstant := (S.placed_sound.2.2.1 _ h).mono
    (S.checked_sound.1.toExtends.trans S.checked_extends)
  exact ⟨value, hvalue', hconstant.eval_eq S.stored_sound.1 hvalue'⟩

theorem tempBase_eq : S.size - Temp.all.length = S.layout.itemsEnd + S.values.length := by
  rw [S.size_eq]
  omega

/-- Every temp field has an address. -/
theorem value?_temp (field : Temp) : ∃ address, S.table.value? field.name = some address := by
  have htemps := S.stored_sound.2.2.2
  cases field with
  | t => exact ⟨_, htemps _ (.head _)⟩
  | e => exact ⟨_, htemps _ (.tail _ (.head _))⟩
  | r => exact ⟨_, htemps _ (.tail _ (.tail _ (.head _)))⟩

end Prepared

namespace Stages

variable {config : Config} {defines : Defines} {source file : String} {image : Image}
  (S : Stages config defines source file image)

/-- The image is built from what the stages have found. -/
theorem built : Built config S.size (S.layout.itemsEnd + S.values.length) S.layout.itemsEnd S.values
    S.table image := by
  have hbuild := S.build
  rw [S.tempBase_eq] at hbuild
  exact (buildImage_sound S.stored_sound.2.2.1 S.value?_temp hbuild).1

/-- The rows of every item hold what the item stands for, and the listing has them in order, before
the pool and the temp fields. -/
theorem shown : ∃ groups,
    image.listing = groups.flatten ++ image.pool.map (fun pair => literalRow pair.1 pair.2) ++
      image.temps.map (fun pair => tempRow pair.1 pair.2) ∧
    List.Forall₂ (Item.Shown S.width S.table.value? S.cell) S.layout.items groups := by
  obtain ⟨-, groups, hlisting, hlisted⟩ :=
    buildImage_sound S.stored_sound.2.2.1 S.value?_temp S.build
  obtain ⟨hitems, -, hbecomes⟩ := S.expanded_sound
  refine ⟨groups, hlisting, ?_⟩
  have hsizes : ∀ pair ∈ S.contents,
      pair.1.body.size? S.width S.table.value? = some pair.1.size := by
    intro pair hmem
    exact S.covers.sizes pair.1 (hitems ▸ List.mem_map_of_mem hmem)
  have hall := (List.forall₂_and_left _ _).mpr ⟨hbecomes _ S.stored_sound.2.1.le,
    (List.forall₂_and_left _ _).mpr ⟨hsizes, hlisted⟩⟩
  rw [← hitems, List.forall₂_map_left_iff]
  exact hall.imp fun pair group h => Item.shown_of_listed h.2.1 h.1 h.2.2

include S in
/-- The rows follow one another from address zero on. -/
theorem tile_listing : Row.Tile 0 image.listing := by
  obtain ⟨groups, hlisting, hshown⟩ := S.shown
  obtain ⟨htile, hstop, -⟩ := S.covers.contiguous.tile S.covers.sizes hshown
  rw [zero_add] at hstop
  rw [hlisting, S.built.pool_eq, S.built.temps_eq]
  refine (htile.append ?_).append ?_
  · rw [hstop, Nat.cast_zero, zero_add]
    exact tile_literalRows _ _
  · rw [List.flatMap_append, List.length_append, hstop, cells_literalRows, Nat.cast_zero,
      zero_add, Nat.cast_add]
    exact tile_tempRows _ _

/-- The cells of the rows: those of the items, those of the pool, and those of the temp fields. -/
theorem cells_listing : ∃ items, items.length = S.layout.itemsEnd ∧
    image.listing.flatMap Row.cells =
      items ++ S.values ++ List.replicate Temp.all.length 0 := by
  obtain ⟨groups, hlisting, hshown⟩ := S.shown
  obtain ⟨-, hstop, -⟩ := S.covers.contiguous.tile S.covers.sizes hshown
  rw [zero_add] at hstop
  refine ⟨_, hstop, ?_⟩
  rw [hlisting, S.built.pool_eq, S.built.temps_eq, List.flatMap_append, List.flatMap_append,
    cells_literalRows, cells_tempRows]

include S in
/-- The cells of the image are those of its listing, row by row. -/
theorem cells_eq : image.cells = image.listing.flatMap Row.cells := by
  obtain ⟨items, hlength, hcells⟩ := S.cells_listing
  rw [S.built.cells_eq]
  refine toList_memory S.tile_listing ?_
  rw [hcells, S.size_eq, List.length_append, List.length_append, hlength, List.length_replicate]
  omega

/-- The size that has been computed is the number of cells. -/
theorem length_cells : (image.cells.length : Int) = S.size := by
  obtain ⟨items, hlength, hcells⟩ := S.cells_listing
  rw [S.cells_eq, hcells, S.size_eq, List.length_append, List.length_append, hlength,
    List.length_replicate]
  push_cast
  rfl

/-- The cell of a literal holds it. -/
theorem getElem?_of_mem_pool {value address : Int}
    (h : (value, address) ∈ Pool.located S.layout.itemsEnd S.values) :
    S.layout.itemsEnd ≤ address ∧ address < S.layout.itemsEnd + S.values.length ∧
      image.cells[address.toNat]? = some value := by
  obtain ⟨index, rfl, hindex⟩ := Pool.exists_index_of_mem_located h
  obtain ⟨items, hlength, hcells⟩ := S.cells_listing
  have hlt := (List.getElem?_eq_some_iff.mp hindex).1
  refine ⟨by omega, by omega, ?_⟩
  have haddress : ((S.layout.itemsEnd : Int) + index).toNat = items.length + index := by omega
  rw [S.cells_eq, hcells, haddress, List.append_assoc, List.getElem?_append_right (by omega),
    Nat.add_sub_cancel_left, List.getElem?_append_left hlt, hindex]

/-- The environment of the image is that of the last table. -/
theorem value?_image : image.value? = S.table.value? := by
  funext name
  rw [Image.value?, S.built.symbols_eq,
    SymbolTable.lookup_resolved (fun _ value => value) S.stored_sound.1.nodup, SymbolTable.value?]
  simp

/-- Where a slot is placed can be read off the image. -/
theorem cell_eq : S.cell = Slot.cell? image.value? (OrderedMap.get? image.pool) := by
  rw [Prepared.cell, S.value?_image, S.built.pool_eq]

/-- The rows of every item stand at the address of the item. -/
theorem exists_shown_hasAt {item : Item} (hmem : item ∈ S.layout.items) :
    ∃ rows, item.Shown S.width S.table.value? S.cell rows ∧
      image.HasAt item.address (rows.flatMap Row.cells) := by
  obtain ⟨groups, hlisting, hshown⟩ := S.shown
  obtain ⟨-, -, hitems⟩ := S.covers.contiguous.tile S.covers.sizes hshown
  obtain ⟨rows, before, after, hrows, hcells, haddress⟩ := hitems item hmem
  rw [zero_add] at haddress
  have happend : image.cells = before ++ rows.flatMap Row.cells ++
      (after ++ ((image.pool.map fun pair => literalRow pair.1 pair.2).flatMap Row.cells ++
        (image.temps.map fun pair => tempRow pair.1 pair.2).flatMap Row.cells)) := by
    rw [S.cells_eq, hlisting, List.flatMap_append, List.flatMap_append, hcells]
    simp only [List.append_assoc]
  exact ⟨rows, hrows, Image.hasAt_of_append happend haddress⟩

/-- The end of an operation is behind all of its triples. -/
theorem endAddress_eq {item : Item} {op : Operation} (hmem : item ∈ S.layout.items)
    (hbody : item.body = .operation op) :
    (item.endAddress : Int) = item.address + op.triples * tripleSize := by
  have hsize := S.covers.sizes item hmem
  rw [hbody] at hsize
  rw [Item.endAddress, ← Option.some.inj hsize]
  push_cast
  rfl

/-- Every operation has an expansion. -/
theorem exists_expansion {item : Item} {op : Operation} (hmem : item ∈ S.layout.items)
    (hbody : item.body = .operation op) :
    ∃ slots, op.expansion? S.width S.table.value? item.address = some slots := by
  obtain ⟨rows, hrows, -⟩ := S.exists_shown_hasAt hmem
  have hcells := hrows.cells
  rw [hbody] at hcells
  exact ⟨hcells.choose, hcells.choose_spec.1⟩

/-- What the slots of an expansion stand for is at the address of the operation. -/
theorem hasAt_expansion {item : Item} {op : Operation} {slots : List (Slot × Slot × Slot)}
    (hmem : item ∈ S.layout.items) (hbody : item.body = .operation op)
    (hslots : op.expansion? S.width S.table.value? item.address = some slots) :
    ∃ cells, (Slot.flatten slots).map S.cell = cells.map some ∧ cells.length = item.size ∧
      image.HasAt item.address cells := by
  obtain ⟨rows, hrows, hat⟩ := S.exists_shown_hasAt hmem
  exact ⟨_, (hrows.map_cells hbody hslots).symm, hrows.length_eq (S.covers.sizes item hmem), hat⟩

/-- Every slot of an expansion stands for a cell. -/
theorem isSome_cell {item : Item} {op : Operation} {slots : List (Slot × Slot × Slot)}
    (hmem : item ∈ S.layout.items) (hbody : item.body = .operation op)
    (hslots : op.expansion? S.width S.table.value? item.address = some slots) {slot : Slot}
    (hslot : slot ∈ Slot.flatten slots) : ∃ address, S.cell slot = some address := by
  obtain ⟨cells, hmap, -⟩ := S.hasAt_expansion hmem hbody hslots
  have hcell : S.cell slot ∈ (Slot.flatten slots).map S.cell := List.mem_map_of_mem hslot
  rw [hmap] at hcell
  obtain ⟨address, -, haddress⟩ := List.mem_map.mp hcell
  exact ⟨address, haddress.symm⟩

/-- Every literal that is used is pooled, and so fits into a cell. -/
theorem fits_literal {item : Item} {value : Int} (hmem : item ∈ S.layout.items)
    (hvalue : value ∈ item.literals S.width S.table.value?) : S.width.Fits value := by
  obtain ⟨op, slots, hbody, hslots, hslot⟩ := Item.mem_literals hvalue
  obtain ⟨address, haddress⟩ := S.isSome_cell hmem hbody hslots hslot
  obtain ⟨index, -, hindex⟩ := Pool.exists_index_of_mem_located (OrderedMap.mem_of_get? haddress)
  exact S.expanded_sound.2.1.pooled.fits _ (List.mem_of_getElem? hindex)

/-- The pool holds the literals of the expansions in the order of their first uses. -/
theorem values_eq :
    S.values = (S.layout.items.flatMap (Item.literals S.width S.table.value?)).eraseDups := by
  obtain ⟨hitems, hinterns, hbecomes⟩ := S.expanded_sound
  have hliterals : S.contents.flatMap (·.2.literals) =
      S.layout.items.flatMap (Item.literals S.width S.table.value?) := by
    rw [← hitems, List.flatMap_map]
    exact List.flatMap_congr fun pair hmem =>
      (hbecomes _ S.stored_sound.2.1.le pair hmem).literals_eq
  have hwrap : (S.layout.items.flatMap (Item.literals S.width S.table.value?)).map S.width.wrap =
      S.layout.items.flatMap (Item.literals S.width S.table.value?) := by
    refine (List.map_congr_left fun value hvalue => ?_).trans (List.map_id _)
    obtain ⟨item, hmem, hvalue⟩ := List.mem_flatMap.mp hvalue
    exact Width.wrap_of_fits (S.fits_literal hmem hvalue)
  rw [Prepared.values, hinterns.values_eq, S.checked_pool, hliterals, hwrap]
  exact Pool.foldl_enter_nil _

end Stages

/-! ## A program

It starts with data, its operations use literals, cells and labels, and it ends with a label that no
item follows. -/

/-- Adds `step` to a cell `n` times, and doubles the result. -/
def sumSource : String :=
  "step equ k - 5\nn: dw 3, $\ntext: db \"hi\"\nloop: add [acc], step\n sub [n], 1\n" ++
  " subleq 0, [n], done\n jmp loop\ndone: mov [acc + 1], [acc]\n add_r [acc], [acc + 1]\n hlt\n" ++
  "acc: resw step\nlast:\n"

def sumWidth : Width := ⟨16, by decide⟩

def sumConfig : Config := { cellBits := sumWidth.bits }

/-- The program can be assembled. -/
theorem exists_assemble_sum :
    ∃ image, assemble sumConfig [("k", 7)] sumSource "sum" = .ok image := by
  have hok : (assemble sumConfig [("k", 7)] sumSource "sum").isOk = true := by decide +kernel
  cases hresult : assemble sumConfig [("k", 7)] sumSource "sum" with
  | error fault =>
      rw [hresult] at hok
      cases hok
  | ok image => exact ⟨image, rfl⟩

end Assembly

end Subleq
