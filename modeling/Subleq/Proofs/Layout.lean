import Subleq.Layout
import Subleq.Proofs.Constants

/-!
# The first pass

`Layout.resolve` gives the items of a program consecutive addresses.  `Item.Contiguous` says that
without sums: every item starts where the one before it ends.  `Layout.Covers` collects what the
first pass promises about its layout: the items are those of the program in order, after the jump to
the first operation if there is one, they are contiguous from address zero on, and each has the
number of cells that its body takes, where the count of a reserve directive is evaluated plainly.

The first pass defines labels as it goes, so a count is evaluated while some labels are still
missing.  It is stated here in the table after the pass, where all of them are there.
-/

namespace Subleq

open Folding

/-! ## Contiguous items -/

namespace Item

/-- The items follow one another from an address up to another one. -/
def Contiguous : (address : Nat) → List Item → (stop : Nat) → Prop
  | address, [], stop => stop = address
  | address, item :: rest, stop => item.address = address ∧ Contiguous item.endAddress rest stop

namespace Contiguous

variable {address stop : Nat} {items : List Item} {item : Item}

/-- A stretch does not end before it starts. -/
theorem le (h : Contiguous address items stop) : address ≤ stop := by
  induction items generalizing address with
  | nil => exact h.ge
  | cons first rest ih =>
      obtain ⟨rfl, hrest⟩ := h
      exact le_trans (Nat.le_add_right _ _) (ih hrest)

/-- An item stands between the two addresses. -/
theorem bounds (h : Contiguous address items stop) (hmem : item ∈ items) :
    address ≤ item.address ∧ item.endAddress ≤ stop := by
  induction items generalizing address with
  | nil => cases hmem
  | cons first rest ih =>
      obtain ⟨rfl, hrest⟩ := h
      rcases List.mem_cons.mp hmem with rfl | hmem
      · exact ⟨le_rfl, hrest.le⟩
      · obtain ⟨hlow, hhigh⟩ := ih hrest hmem
        exact ⟨le_trans (Nat.le_add_right _ _) hlow, hhigh⟩

/-- No two items have a cell in common. -/
theorem eq_of_mem_cells {other : Item} {cell : Nat} (h : Contiguous address items stop)
    (hmem : item ∈ items) (hother : other ∈ items) (hcell : item.address ≤ cell)
    (hcell' : cell < item.endAddress) (hcell₂ : other.address ≤ cell)
    (hcell₂' : cell < other.endAddress) : item = other := by
  induction items generalizing address with
  | nil => cases hmem
  | cons first rest ih =>
      obtain ⟨-, hrest⟩ := h
      rcases List.mem_cons.mp hmem with rfl | hmem' <;>
        rcases List.mem_cons.mp hother with rfl | hother'
      · rfl
      · have := (hrest.bounds hother').1
        omega
      · have := (hrest.bounds hmem').1
        omega
      · exact ih hrest hmem' hother'

end Contiguous

end Item

/-! ## Sizes -/

namespace Body

/-- The number of cells that a body takes in an environment. -/
def size? (width : Width) (env : Environment) : Body → Option Nat
  | .operation op => some (op.triples * tripleSize)
  | .data _ values => some (values.map Datum.size).sum
  | .reserve _ count =>
      match count.eval width env none with
      | some cells => if cells < 0 then none else some cells.toNat
      | none => none

variable {width : Width} {env env' : Environment}

/-- A reserve directive takes as many cells as its count says, which must not be negative. -/
theorem size?_reserve_eq_some {size : DataSize} {count : Expr} {cells : Nat} :
    (reserve size count).size? width env = some cells ↔
      count.eval width env none = some (cells : Int) := by
  rw [size?]
  constructor
  -- a negative count has no size
  · intro h
    split at h
    · next number hnumber =>
      split at h
      · cases h
      · next hnonneg =>
        obtain rfl := Option.some.inj h
        rw [hnumber, Int.toNat_of_nonneg (by omega)]
    · cases h
  · intro h
    rw [h]
    exact if_neg (by omega)

/-- A larger environment gives the same size. -/
theorem size?_mono (hle : env.Le env') (body : Body) {cells : Nat}
    (h : body.size? width env = some cells) : body.size? width env' = some cells := by
  cases body with
  | operation op => exact h
  | data size values => exact h
  | reserve size count =>
      rw [size?_reserve_eq_some] at h ⊢
      exact count.eval_mono hle h

end Body

namespace Layout

variable {width : Width} {range : ValueRange width} {table table' : SymbolTable}
  {limit : Int} {statements : List Statement}

/-- The size of an item is the one that its body has in the table afterwards. -/
theorem bodySize_sound {body : Body} {location : Location} {cells : Nat}
    (hsound : SymbolTable.Sound range table)
    (h : Yields (bodySize body location) table cells table') :
    SymbolTable.Sound range table' ∧ SymbolTable.Folds table table' ∧
      body.size? width table'.value? = some cells := by
  rw [bodySize, yields_bind] at h
  obtain ⟨_, _, hget, h⟩ := h
  obtain ⟨rfl, rfl⟩ := yields_get.mp hget
  cases body with
  | operation op =>
      obtain ⟨rfl, rfl⟩ := yields_pure.mp h
      exact ⟨hsound, SymbolTable.Folds.refl _, rfl⟩
  | data size values =>
      simp only [yields_bind, yields_liftM, yields_pure] at h
      obtain ⟨_, _, ⟨-, rfl⟩, rfl, rfl⟩ := h
      exact ⟨hsound, SymbolTable.Folds.refl _, rfl⟩
  | reserve size count =>
      simp only [yields_bind, yields_liftM] at h
      obtain ⟨_, _, ⟨-, rfl⟩, number, table₁, hcount, h⟩ := h
      obtain ⟨hsound₁, hfolds, heval⟩ := SymbolTable.evaluate_sound (fun _ hp => by cases hp)
        hsound hcount
      split at h
      · exact absurd h yields_throw
      · next hnonneg =>
        obtain ⟨rfl, rfl⟩ := yields_pure.mp h
        refine ⟨hsound₁, hfolds, ?_⟩
        rw [Body.size?_reserve_eq_some, heval, Int.toNat_of_nonneg (by omega)]

/-! ## Definitions -/

/-- All constants of a program are entered with their definitions. -/
theorem defineConstants_sound {u : Unit} (hsound : SymbolTable.Sound range table)
    (h : Yields (defineConstants statements) table u table') :
    SymbolTable.Grows range table table' ∧
      ∀ keyword name value location, .constant keyword name value location ∈ statements →
        table'.HasConstant name value := by
  induction statements generalizing table with
  | nil =>
      obtain ⟨-, rfl⟩ := yields_pure.mp h
      exact ⟨.refl hsound, by simp⟩
  | cons first rest ih =>
      -- the first walk passes by everything but constants
      cases first with
      | constant keyword name value location =>
          simp only [defineConstants, yields_bind, yields_update] at h
          obtain ⟨_, table₁, hdefine, h⟩ := h
          obtain ⟨hgrows₁, hfirst⟩ := SymbolTable.defineConstant_sound hsound hdefine
          obtain ⟨hgrows, hrest⟩ := ih hgrows₁.sound h
          refine ⟨hgrows₁.trans hgrows, fun keyword' name' value' location' hmem => ?_⟩
          rcases List.mem_cons.mp hmem with heq | hmem
          · cases heq
            exact hfirst.mono hgrows.toExtends
          · exact hrest keyword' name' value' location' hmem
      | label name location =>
          obtain ⟨hgrows, hrest⟩ := ih hsound h
          exact ⟨hgrows, fun _ _ _ _ hmem => hrest _ _ _ _ (by simpa using hmem)⟩
      | item body location =>
          obtain ⟨hgrows, hrest⟩ := ih hsound h
          exact ⟨hgrows, fun _ _ _ _ hmem => hrest _ _ _ _ (by simpa using hmem)⟩

/-- Labels are defined at the address of their item. -/
theorem defineLabels_sound {address : Nat} {labels : List (String × Location)} {u : Unit}
    (haddress : range.Holds .label address) (hsound : SymbolTable.Sound range table)
    (h : Yields (defineLabels address labels) table u table') :
    SymbolTable.Grows range table table' ∧
      ∀ label ∈ labels, table'.value? label.1 = some (address : Int) := by
  induction labels generalizing table with
  | nil =>
      obtain ⟨-, rfl⟩ := yields_pure.mp h
      exact ⟨.refl hsound, by simp⟩
  | cons first rest ih =>
      simp only [defineLabels, yields_bind, yields_update] at h
      obtain ⟨_, table₁, hdefine, h⟩ := h
      -- an address is what a label may stand for
      have hgrows₁ : SymbolTable.Grows range table table₁ := by
        refine .define hsound hdefine (fun value hv => ?_) (fun hkind => by cases hkind)
        obtain rfl := Option.some.inj hv
        exact haddress
      obtain ⟨hgrows, hrest⟩ := ih hgrows₁.sound h
      refine ⟨hgrows₁.trans hgrows, fun label hmem => ?_⟩
      rcases List.mem_cons.mp hmem with rfl | hmem
      -- the label keeps its value while the others are entered
      · refine hgrows.toExtends.le _ _ ?_
        rw [SymbolTable.value?, SymbolTable.find?_define hdefine, if_pos rfl]
        rfl
      · exact hrest label hmem

/-! ## Places -/

/-- A size that passes the check is within the limit. -/
theorem le_of_checkSize {limit size : Int} {u : Unit} (h : checkSize limit size = .ok u) :
    size ≤ limit := by
  rw [checkSize] at h
  split at h
  · cases h
  · next hle => exact not_lt.mp hle

/-- One item of the first pass: its size is found, its labels are defined, and the others follow. -/
theorem yields_placeItems_item {address : Nat} {pending : List (String × Location)} {body : Body}
    {location : Location} {rest : List Statement} {items : List Item} {itemsEnd : Nat}
    (h : Yields (placeItems limit address pending (.item body location :: rest)) table
      (items, itemsEnd) table') :
    ∃ size others table₁ table₂, Yields (bodySize body location) table size table₁ ∧
      Yields (defineLabels address pending) table₁ () table₂ ∧
      ((address + size : Nat) : Int) ≤ limit ∧
      Yields (placeItems limit (address + size) [] rest) table₂ (others, itemsEnd) table' ∧
      items = ⟨body, location, address, size, pending.map Prod.fst, false⟩ :: others := by
  simp only [placeItems, yields_bind, yields_liftM, yields_pure] at h
  obtain ⟨size, table₁, hsize, _, table₂, hlabels, _, _, ⟨hcheck, rfl⟩, ⟨others, stop⟩, _, hrest,
    heq, rfl⟩ := h
  cases heq
  exact ⟨size, others, table₁, _, hsize, hlabels, le_of_checkSize hcheck, hrest, rfl⟩

/-- The items are those of the program, and they are contiguous. -/
theorem placeItems_contiguous {address : Nat} {pending : List (String × Location)}
    {items : List Item} {itemsEnd : Nat}
    (h : Yields (placeItems limit address pending statements) table (items, itemsEnd) table') :
    Item.Contiguous address items itemsEnd ∧ items.map Item.body = bodies statements ∧
      ∀ item ∈ items, item.inserted = false := by
  -- labels and constants take no place; an item takes its size
  induction statements generalizing address pending items table with
  | nil =>
      simp only [placeItems, yields_bind, yields_pure] at h
      obtain ⟨-, -, -, heq, -⟩ := h
      cases heq
      exact ⟨rfl, rfl, by simp⟩
  | cons first rest ih =>
      cases first with
      | label name location => exact ih h
      | constant keyword name value location => exact ih h
      | item body location =>
          obtain ⟨size, others, table₁, table₂, -, -, -, hrest, rfl⟩ := yields_placeItems_item h
          obtain ⟨hcontiguous, hbodies, hinserted⟩ := ih hrest
          refine ⟨⟨rfl, hcontiguous⟩, by rw [List.map_cons, hbodies]; rfl, ?_⟩
          intro item hmem
          rcases List.mem_cons.mp hmem with rfl | hmem
          · rfl
          · exact hinserted item hmem

/-- The items have the sizes of their bodies, and every label is defined.  The hypothesis says that
the addresses of the pass are in the range of labels. -/
theorem placeItems_sound {address : Nat} {pending : List (String × Location)}
    {items : List Item} {itemsEnd : Nat}
    (hlabels : ∀ label : Nat, label ≤ itemsEnd → range.Holds .label label)
    (hsound : SymbolTable.Sound range table)
    (h : Yields (placeItems limit address pending statements) table (items, itemsEnd) table') :
    SymbolTable.Grows range table table' ∧
      (∀ item ∈ items, item.body.size? width table'.value? = some item.size) ∧
      ∀ name location, (name, location) ∈ pending ∨ .label name location ∈ statements →
        ∃ value : Nat, table'.value? name = some (value : Int) ∧ value ≤ itemsEnd := by
  induction statements generalizing address pending items table with
  | nil =>
      have haddress := (placeItems_contiguous h).1.le
      simp only [placeItems, yields_bind, yields_pure] at h
      obtain ⟨_, _, hdefine, heq, rfl⟩ := h
      cases heq
      obtain ⟨hgrows, hvalues⟩ := defineLabels_sound (hlabels _ haddress) hsound hdefine
      refine ⟨hgrows, by simp, fun name location hmem => ?_⟩
      exact ⟨_, hvalues _ (hmem.resolve_right (by simp)), le_rfl⟩
  | cons first rest ih =>
      cases first with
      | label name location =>
          obtain ⟨hgrows, hsizes, hnames⟩ := ih hsound h
          refine ⟨hgrows, hsizes, fun name' location' hmem => hnames name' location' ?_⟩
          rcases hmem with hmem | hmem
          · exact .inl (List.mem_append_left _ hmem)
          · rcases List.mem_cons.mp hmem with heq | hmem
            · cases heq
              exact .inl (by simp)
            · exact .inr hmem
      | constant keyword name value location =>
          obtain ⟨hgrows, hsizes, hnames⟩ := ih hsound h
          exact ⟨hgrows, hsizes, fun name' location' hmem =>
            hnames name' location' (hmem.imp_right (by simp))⟩
      | item body location =>
          have haddress := (placeItems_contiguous h).1.le
          obtain ⟨size, others, table₁, table₂, hsize, hdefine, -, hrest, rfl⟩ :=
            yields_placeItems_item h
          obtain ⟨hsound₁, hfolds, hbody⟩ := bodySize_sound hsound hsize
          have hgrows₁ := SymbolTable.Grows.of_folds hsound₁ hfolds
          obtain ⟨hgrows₂, hvalues⟩ := defineLabels_sound (hlabels _ haddress) hsound₁ hdefine
          obtain ⟨hgrows₃, hsizes, hnames⟩ := ih hgrows₂.sound hrest
          refine ⟨(hgrows₁.trans hgrows₂).trans hgrows₃, fun item hmem => ?_,
            fun name location' hmem => ?_⟩
          · rcases List.mem_cons.mp hmem with rfl | hmem
            · -- the size was found before the labels after the item were defined
              exact body.size?_mono (hgrows₂.trans hgrows₃).toExtends.le hbody
            · exact hsizes item hmem
          · rcases hmem with hmem | hmem
            · exact ⟨address, hgrows₃.toExtends.le _ _ (hvalues _ hmem), haddress⟩
            · exact hnames name location' (.inr (by simpa using hmem))

/-! ## The whole pass -/

/-- The items that were in the source. -/
def sourceItems (layout : Layout) : List Item := layout.items.filter (!·.inserted)

/-- Whether a jump stands in front of a program. -/
def jumps (withEntryJump : Bool) (statements : List Statement) : Bool :=
  withEntryJump && startsWithData statements

/-- A jump is put in front only of a program that starts with data. -/
theorem startsWithData_of_jumps {withEntryJump : Bool} (h : jumps withEntryJump statements = true) :
    startsWithData statements = true := by
  rw [jumps, Bool.and_eq_true] at h
  exact h.2

/-- What the first pass promises.  The environment is that of the table after it, or a larger
one. -/
structure Covers (width : Width) (env : Environment) (withEntryJump : Bool)
    (statements : List Statement) (layout : Layout) : Prop where
  items_eq : layout.items =
    (if jumps withEntryJump statements then entryJump layout.sourceItems else []) ++
      layout.sourceItems
  bodies_eq : layout.sourceItems.map Item.body = bodies statements
  contiguous : Item.Contiguous 0 layout.items layout.itemsEnd
  sizes : ∀ item ∈ layout.items, item.body.size? width env = some item.size

/-- What covers a program in an environment covers it in every larger one. -/
theorem Covers.mono {env env' : Environment} {withEntryJump : Bool} {layout : Layout}
    (h : Covers width env withEntryJump statements layout) (hle : env.Le env') :
    Covers width env' withEntryJump statements layout :=
  ⟨h.items_eq, h.bodies_eq, h.contiguous,
    fun item hmem => item.body.size?_mono hle (h.sizes item hmem)⟩

/-- A program that starts with data and has code has a first operation. -/
theorem exists_code_of_startsWithData {items : List Item}
    (hbodies : items.map Item.body = bodies statements) (h : startsWithData statements = true) :
    ∃ first, items.find? Item.isCode = some first := by
  rw [startsWithData, ← hbodies] at h
  cases items with
  | nil => cases h
  | cons first rest =>
      rw [List.map_cons] at h
      simp only [Bool.and_eq_true, List.any_map, List.any_eq_true, Function.comp_apply] at h
      obtain ⟨-, item, hmem, hcode⟩ := h
      rw [← Option.isSome_iff_exists, List.find?_isSome]
      exact ⟨item, List.mem_cons_of_mem _ hmem, hcode⟩

/-- A program with code that does not start with data starts with its first operation. -/
theorem eq_cons_of_not_startsWithData {items : List Item} {first : Item}
    (hbodies : items.map Item.body = bodies statements) (h : startsWithData statements = false)
    (hfirst : items.find? Item.isCode = some first) : ∃ rest, items = first :: rest := by
  rw [startsWithData, ← hbodies] at h
  cases items with
  | nil => cases hfirst
  | cons head rest =>
      by_cases hcode : head.isCode = true
      · rw [List.find?_cons_of_pos hcode] at hfirst
        exact ⟨rest, by rw [Option.some.inj hfirst]⟩
      · -- otherwise the first operation comes after data
        rw [List.find?_cons_of_neg hcode] at hfirst
        have hany : rest.any Item.isCode = true :=
          List.any_eq_true.mpr ⟨first, List.mem_of_find?_eq_some hfirst, List.find?_some hfirst⟩
        rw [List.map_cons] at h
        simp only [List.any_map, Bool.and_eq_false_iff, Bool.not_eq_false'] at h
        rcases h with h | h
        · exact absurd h hcode
        · exact absurd (hany.symm.trans h) (by decide)

/-- The jump to an operation. -/
def jumpTo (first : Item) : Item :=
  ⟨.operation (.jmp ⟨.immediate (.num first.address (some first.location)), first.location⟩),
    first.location, 0, tripleSize, [], true⟩

/-- The jump in front goes to the first item that is code. -/
theorem entryJump_eq {items : List Item} {first : Item} (h : items.find? Item.isCode = some first) :
    entryJump items = [jumpTo first] := by
  rw [entryJump, h]
  rfl

/-- The parts of the first pass: constants first, then places. -/
theorem yields_resolve {withEntryJump : Bool} {layout : Layout}
    (h : Yields (resolve limit withEntryJump statements) table layout table') :
    ∃ placed table₁, Yields (defineConstants statements) table () table₁ ∧
      Yields (placeItems limit (if jumps withEntryJump statements then tripleSize else 0) []
        statements) table₁ (placed, layout.itemsEnd) table' ∧
      layout = ⟨(if jumps withEntryJump statements then entryJump placed else []) ++ placed,
        layout.itemsEnd, none, none, none⟩ := by
  simp only [resolve, yields_bind, yields_pure] at h
  obtain ⟨_, table₁, hconstants, ⟨placed, itemsEnd⟩, _, hplace, rfl, rfl⟩ := h
  refine ⟨placed, table₁, hconstants, hplace, ?_⟩
  show Layout.mk _ _ _ _ _ = Layout.mk _ _ _ _ _
  rw [jumps]
  split <;> rfl

/-- The first pass places the items of the source, from the end of the jump on if there is one. -/
theorem exists_placeItems_of_resolve {withEntryJump : Bool} {layout : Layout}
    (h : Yields (resolve limit withEntryJump statements) table layout table') :
    ∃ table₁, Yields (defineConstants statements) table () table₁ ∧
      Yields (placeItems limit (if jumps withEntryJump statements then tripleSize else 0) []
        statements) table₁ (layout.sourceItems, layout.itemsEnd) table' ∧
      layout.items =
        (if jumps withEntryJump statements then entryJump layout.sourceItems else []) ++
          layout.sourceItems ∧
      Item.Contiguous 0 layout.items layout.itemsEnd := by
  obtain ⟨placed, table₁, hconstants, hplace, hlayout⟩ := yields_resolve h
  obtain ⟨hcontiguous, hbodies, hinserted⟩ := placeItems_contiguous hplace
  -- nothing that was placed is the inserted jump, so all of it is kept
  have hfilter : placed.filter (!·.inserted) = placed :=
    List.filter_eq_self.mpr fun item hmem => by simp [hinserted item hmem]
  -- with a jump in front everything is three cells further on
  by_cases hjumps : jumps withEntryJump statements = true
  · obtain ⟨first, hfirst⟩ :=
      exists_code_of_startsWithData hbodies (startsWithData_of_jumps hjumps)
    rw [if_pos hjumps, entryJump_eq hfirst] at hlayout
    have hitems : layout.items = jumpTo first :: placed := by rw [hlayout]; rfl
    have hsource : layout.sourceItems = placed := by
      rw [sourceItems, hitems, List.filter_cons_of_neg (by simp [jumpTo]), hfilter]
    rw [if_pos hjumps] at hcontiguous
    refine ⟨table₁, hconstants, hsource ▸ hplace, ?_, hitems ▸ ⟨rfl, hcontiguous⟩⟩
    rw [if_pos hjumps, hsource, entryJump_eq hfirst, hitems]
    rfl
  · rw [if_neg hjumps, List.nil_append] at hlayout
    have hitems : layout.items = placed := by rw [hlayout]
    have hsource : layout.sourceItems = placed := by rw [sourceItems, hitems, hfilter]
    rw [if_neg hjumps] at hcontiguous
    refine ⟨table₁, hconstants, hsource ▸ hplace, ?_, hitems ▸ hcontiguous⟩
    rw [if_neg hjumps, hsource, hitems, List.nil_append]

/-- A jump has the size of one instruction. -/
theorem size?_of_mem_entryJump {env : Environment} {items : List Item} {item : Item}
    (h : item ∈ entryJump items) : item.body.size? width env = some item.size := by
  cases hfirst : items.find? Item.isCode with
  | none =>
      rw [entryJump, hfirst] at h
      cases h
  | some first =>
      rw [entryJump_eq hfirst, List.mem_singleton] at h
      rw [h]
      rfl

/-- The first pass lets a sound table grow, covers the program, and enters its constants and
labels. -/
theorem resolve_sound {withEntryJump : Bool} {layout : Layout}
    (hlabels : ∀ label : Nat, label ≤ layout.itemsEnd → range.Holds .label label)
    (hsound : SymbolTable.Sound range table)
    (h : Yields (resolve limit withEntryJump statements) table layout table') :
    SymbolTable.Grows range table table' ∧
      Covers width table'.value? withEntryJump statements layout ∧
      (∀ keyword name value location, .constant keyword name value location ∈ statements →
        table'.HasConstant name value) ∧
      ∀ name location, .label name location ∈ statements →
        ∃ value : Nat, table'.value? name = some (value : Int) ∧ value ≤ layout.itemsEnd := by
  obtain ⟨table₁, hconstants, hplace, hitems, hcontiguous⟩ := exists_placeItems_of_resolve h
  obtain ⟨hgrows₁, hdefined⟩ := defineConstants_sound hsound hconstants
  obtain ⟨hgrows₂, hsizes, hnames⟩ := placeItems_sound hlabels hgrows₁.sound hplace
  refine ⟨hgrows₁.trans hgrows₂, ⟨hitems, (placeItems_contiguous hplace).2.1, hcontiguous, ?_⟩,
    fun _ _ _ _ hmem => (hdefined _ _ _ _ hmem).mono hgrows₂.toExtends,
    fun name location hmem => hnames name location (.inr hmem)⟩
  intro item hmem
  rw [hitems] at hmem
  rcases List.mem_append.mp hmem with hjump | hmem
  · split at hjump
    · exact size?_of_mem_entryJump hjump
    · cases hjump
  · exact hsizes item hmem

end Layout

end Subleq
