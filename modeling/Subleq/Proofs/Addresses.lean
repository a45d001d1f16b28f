import Subleq.Proofs.Rearrangement

/-!
# Addresses

The first pass walks over a program once.  On the way it finds the size of each item, for which it
may have to fold constants, keeps the labels that wait for the next item, and enters them when it
has got there.  `Layout.Addressed` says what comes out of that without a walk: the address of an
item is the sum of the sizes of the items before it, and a label has the address of the item whose
number is the number of items before the label in the source.

Folding constants changes the table.  What was entered into it does not change
(`SymbolTable.unfolded`), so the symbols that the pass enters can be told exactly and in order
(`SymbolTable.Enters`): the constants, then the labels.
-/

namespace Subleq

open Folding SymbolTable

/-! ## Sums of sizes -/

namespace Item.Contiguous

variable {address stop : Nat} {items : List Item}

/-- Items that follow one another end where the sum of their sizes says. -/
theorem stop_eq (h : Contiguous address items stop) :
    stop = address + (items.map Item.size).sum := by
  induction items generalizing address with
  | nil => exact h
  | cons first rest ih =>
      obtain ⟨rfl, hrest⟩ := h
      rw [ih hrest, List.map_cons, List.sum_cons, endAddress, Nat.add_assoc]

/-- The items of a stretch can be cut anywhere, and the two parts meet at an address. -/
theorem of_append {before after : List Item} (h : Contiguous address (before ++ after) stop) :
    ∃ middle, Contiguous address before middle ∧ Contiguous middle after stop := by
  induction before generalizing address with
  | nil => exact ⟨address, rfl, h⟩
  | cons first rest ih =>
      obtain ⟨hfirst, hrest⟩ := h
      obtain ⟨middle, hbefore, hafter⟩ := ih hrest
      exact ⟨middle, ⟨hfirst, hbefore⟩, hafter⟩

/-- An item starts where the sum of the sizes before it says. -/
theorem address_eq {before after : List Item} {item : Item}
    (h : Contiguous address (before ++ item :: after) stop) :
    item.address = address + (before.map Item.size).sum := by
  obtain ⟨middle, hbefore, hafter⟩ := h.of_append
  exact hafter.1.trans hbefore.stop_eq

end Item.Contiguous

/-! ## Labels of a program -/

namespace Statement

/-- The item that a statement is. -/
def item? : Statement → Option (Body × Location)
  | .item body location => some (body, location)
  | _ => none

/-- The name that a statement gives to an address. -/
def labelName? : Statement → Option String
  | .label name _ => some name
  | _ => none

/-- The name that a statement gives to a value. -/
def constantName? : Statement → Option String
  | .constant _ name _ _ => some name
  | _ => none

def items (statements : List Statement) : List (Body × Location) := statements.filterMap item?

/-- The symbols that the constants enter have the names of the constants. -/
theorem names_entry? (statements : List Statement) :
    (statements.filterMap entry?).map Symbol.name = statements.filterMap constantName? := by
  rw [List.map_filterMap]
  congr 1
  funext statement
  cases statement <;> rfl

end Statement

/-- A label of a program, with the number of items that come before it. -/
structure Label where
  name : String
  location : Location
  index : Nat
deriving DecidableEq, Repr

namespace Label

/-- The label after one more item. -/
def later (label : Label) : Label := { label with index := label.index + 1 }

/-- The labels that wait for the next item. -/
def waiting (pending : List (String × Location)) : List Label :=
  pending.map fun label => ⟨label.1, label.2, 0⟩

/-- The labels of a program in order, each with the number of items before it. -/
def ofStatements : List Statement → List Label
  | [] => []
  | .label name location :: rest => ⟨name, location, 0⟩ :: ofStatements rest
  | .constant _ _ _ _ :: rest => ofStatements rest
  | .item _ _ :: rest => (ofStatements rest).map later

/-- A label of the program joins those that wait. -/
theorem waiting_append (pending : List (String × Location)) (name : String) (location : Location)
    (rest : List Statement) :
    waiting (pending ++ [(name, location)]) ++ ofStatements rest =
      waiting pending ++ ofStatements (.label name location :: rest) := by
  rw [waiting, List.map_append, List.append_assoc]
  rfl

/-- The names of the labels for one item. -/
def namesAt (index : Nat) (labels : List Label) : List String :=
  (labels.filter (·.index == index)).map name

/-- Labels before an item are collected in order. -/
theorem namesAt_append (index : Nat) (labels labels' : List Label) :
    namesAt index (labels ++ labels') = namesAt index labels ++ namesAt index labels' := by
  rw [namesAt, List.filter_append, List.map_append]
  rfl

/-- Labels that wait for an item belong to the next one. -/
theorem namesAt_zero_waiting (pending : List (String × Location)) :
    namesAt 0 (waiting pending) = pending.map Prod.fst := by
  simp [namesAt, waiting, List.filter_map, Function.comp_def]

theorem namesAt_succ_waiting (index : Nat) (pending : List (String × Location)) :
    namesAt (index + 1) (waiting pending) = [] := by
  simp [namesAt, waiting, List.filter_map, Function.comp_def]

/-- Labels of later items are not those of the next one. -/
theorem namesAt_zero_later (labels : List Label) : namesAt 0 (labels.map later) = [] := by
  simp [namesAt, later]

/-- Later items count on from the next one. -/
theorem namesAt_succ_later (index : Nat) (labels : List Label) :
    namesAt (index + 1) (labels.map later) = namesAt index labels := by
  simp [namesAt, later, List.filter_map, Function.comp_def]

/-- A name is at an item exactly if some label of that name waits for it. -/
theorem mem_namesAt {index : Nat} {labels : List Label} {target : String} :
    target ∈ namesAt index labels ↔
      ∃ location, (⟨target, location, index⟩ : Label) ∈ labels := by
  rw [namesAt, List.mem_map]
  constructor
  · rintro ⟨label, hmem, rfl⟩
    obtain ⟨hlabel, hindex⟩ := List.mem_filter.mp hmem
    rw [← beq_iff_eq.mp hindex]
    exact ⟨label.location, hlabel⟩
  · rintro ⟨location, hmem⟩
    exact ⟨_, List.mem_filter.mpr ⟨hmem, beq_self_eq_true index⟩, rfl⟩

/-- Every label of the program is placed once, in the order of the program. -/
theorem names_ofStatements (statements : List Statement) :
    (ofStatements statements).map name = statements.filterMap Statement.labelName? := by
  induction statements with
  | nil => rfl
  | cons first rest ih =>
      cases first with
      | label name location => exact congrArg (name :: ·) ih
      | constant _ _ _ _ => exact ih
      | item body location =>
          rw [ofStatements, List.map_map]
          exact ih

/-- A list is split at an element by its head, or by its tail. -/
theorem exists_split_cons {α : Type} {P : List α → Prop} {first target : α} {rest : List α} :
    (∃ before after, first :: rest = before ++ target :: after ∧ P before) ↔
      first = target ∧ P [] ∨
        ∃ before after, rest = before ++ target :: after ∧ P (first :: before) := by
  constructor
  · rintro ⟨before, after, heq, hbefore⟩
    rcases List.cons_eq_append_iff.mp heq with ⟨rfl, hhead⟩ | ⟨before, rfl, hrest⟩
    · exact .inl ⟨(List.cons.inj hhead).1.symm, hbefore⟩
    · exact .inr ⟨before, after, hrest, hbefore⟩
  · rintro (⟨rfl, hnil⟩ | ⟨before, after, rfl, hbefore⟩)
    · exact ⟨[], rest, rfl, hnil⟩
    · exact ⟨first :: before, after, rfl, hbefore⟩

/-- The labels of a program are its label statements, with the numbers of items before them. -/
theorem mem_ofStatements {statements : List Statement} {label : Label} :
    label ∈ ofStatements statements ↔
      ∃ before after, statements = before ++ .label label.name label.location :: after ∧
        (Statement.items before).length = label.index := by
  induction statements generalizing label with
  | nil => simp [ofStatements]
  | cons first rest ih =>
      rw [exists_split_cons]
      cases first with
      | label name location =>
          rw [ofStatements, List.mem_cons, ih]
          -- the split at the head is the label itself; the others are splits of the rest
          refine or_congr ?_ Iff.rfl
          rcases label with ⟨name', location', index⟩
          simp [Statement.items, and_assoc, eq_comm]
      | constant keyword name value location =>
          rw [ofStatements, ih, or_iff_right (fun h => by cases h.1)]
          rfl
      | item body location =>
          rw [ofStatements, List.mem_map, or_iff_right (fun h => by cases h.1)]
          constructor
          -- an item in front moves every label after it to the next index
          · rintro ⟨earlier, hmem, rfl⟩
            obtain ⟨before, after, hrest, hindex⟩ := ih.mp hmem
            exact ⟨before, after, hrest, congrArg (· + 1) hindex⟩
          · rintro ⟨before, after, hrest, hindex⟩
            refine ⟨⟨label.name, label.location, (Statement.items before).length⟩,
              ih.mpr ⟨before, after, hrest, rfl⟩, ?_⟩
            rw [later]
            show Label.mk _ _ ((Statement.items (.item body location :: before)).length) = label
            rw [hindex]

/-- The address of a label: that of the item after it, or the end of all items. -/
def address (items : List Item) (itemsEnd : Nat) (label : Label) : Nat :=
  (items[label.index]?.map Item.address).getD itemsEnd

/-- What a label enters into the table. -/
def symbol (items : List Item) (itemsEnd : Nat) (label : Label) : Symbol :=
  ⟨label.name, .label, some (label.address items itemsEnd : Int), none, some label.location⟩

end Label

/-! ## What is entered -/

namespace SymbolTable

variable {table table' table'' : SymbolTable} {symbols symbols' : List Symbol} {symbol : Symbol}

/-- Forgetting the values that were looked up keeps the names. -/
theorem names_unfolded (table : SymbolTable) :
    table.unfolded.symbols.map Symbol.name = table.symbols.map Symbol.name := by
  rw [unfolded, List.map_map]
  exact List.map_congr_left fun symbol _ => symbol.name_unfolded

/-- Symbols are entered after those that are there.  Some constants may have been folded as well. -/
structure Enters (symbols : List Symbol) (table table' : SymbolTable) : Prop where
  kept : Kept table'
  symbols_eq : table'.unfolded.symbols = table.unfolded.symbols ++ symbols

namespace Enters

/-- A table that has only looked values up has entered nothing. -/
theorem of_unfolded_eq (hkept : Kept table') (h : table'.unfolded = table.unfolded) :
    Enters [] table table' :=
  ⟨hkept, by rw [h, List.append_nil]⟩

/-- What is entered one after the other is entered together. -/
theorem trans (h : Enters symbols table table') (h' : Enters symbols' table' table'') :
    Enters (symbols ++ symbols') table table'' :=
  ⟨h'.kept, by rw [h'.symbols_eq, h.symbols_eq, List.append_assoc]⟩

/-- A definition enters its symbol. -/
theorem define (hkept : Kept table) (hsymbol : symbol.unfolded = symbol)
    (hdefine : table.define symbol = .ok table') : Enters [symbol] table table' := by
  refine ⟨Backed.define hkept hdefine hsymbol, ?_⟩
  obtain ⟨-, rfl⟩ := define_eq_ok.mp hdefine
  show (table.symbols ++ [symbol]).map Symbol.unfolded =
    table.symbols.map Symbol.unfolded ++ [symbol]
  rw [List.map_append, List.map_singleton, hsymbol]

/-- Evaluation enters nothing, whatever it looks up. -/
theorem evaluate {e : Expr} {here : Option Int} {value : Int} (hkept : Kept table)
    (hyields : Yields (evaluate e here) table value table') : Enters [] table table' := by
  have hbacked := hkept.backed_evaluate hyields
  exact .of_unfolded_eq hbacked.kept hbacked.unfolded_eq

/-- The names of the table grow by the names that are entered. -/
theorem names_eq (h : Enters symbols table table') :
    table'.symbols.map Symbol.name = table.symbols.map Symbol.name ++ symbols.map Symbol.name := by
  rw [← names_unfolded, h.symbols_eq, List.map_append, names_unfolded]

/-- A symbol that was entered with a value has it, unless it is a constant. -/
theorem value?_eq (h : Enters symbols table table') (hmem : symbol ∈ symbols)
    (hkind : symbol.kind ≠ .constant) : table'.value? symbol.name = symbol.value := by
  have hmem' : symbol ∈ table'.unfolded.symbols := by
    rw [h.symbols_eq]
    exact List.mem_append_right _ hmem
  have hnodup : (table'.unfolded.symbols.map Symbol.name).Nodup := by
    rw [names_unfolded]
    exact h.kept.nodup
  have hfind := find?_of_mem hnodup hmem'
  rw [find?_unfolded] at hfind
  obtain ⟨entry, hentry, rfl⟩ := Option.map_eq_some_iff.mp hfind
  rw [Symbol.kind_unfolded] at hkind
  rw [value?_of_find? hentry, Symbol.value_unfolded, if_neg hkind]

end Enters

end SymbolTable

namespace Layout

variable {table table' : SymbolTable} {limit : Int} {statements : List Statement}

/-- Neither does counting the cells of an item, although the number of cells may be an
expression. -/
theorem bodySize_enters {body : Body} {location : Location} {size : Nat} (hkept : Kept table)
    (h : Yields (bodySize body location) table size table') : Enters [] table table' := by
  rw [bodySize, yields_bind] at h
  obtain ⟨_, _, hget, h⟩ := h
  obtain ⟨rfl, rfl⟩ := yields_get.mp hget
  cases body with
  | operation op =>
      obtain ⟨-, rfl⟩ := yields_pure.mp h
      exact .of_unfolded_eq hkept rfl
  | data size values =>
      simp only [yields_bind, yields_liftM, yields_pure] at h
      obtain ⟨_, _, ⟨-, rfl⟩, -, rfl⟩ := h
      exact .of_unfolded_eq hkept rfl
  | reserve size count =>
      simp only [yields_bind, yields_liftM] at h
      obtain ⟨_, _, ⟨-, rfl⟩, number, table₁, hcount, h⟩ := h
      -- a negative count is refused, so a size is left over only if there is none
      split at h
      · exact absurd h yields_throw
      · obtain ⟨-, rfl⟩ := yields_pure.mp h
        exact .evaluate hkept hcount

/-- The first walk enters the constants, in the order of the program. -/
theorem defineConstants_enters {u : Unit} (hkept : Kept table)
    (h : Yields (defineConstants statements) table u table') :
    Enters (statements.filterMap Statement.entry?) table table' := by
  have hkept' := hkept.of_follows (follows_defineConstants simulation_aligned _) h
  obtain ⟨rfl, -⟩ := (yields_defineConstants hkept.nodup).mp h
  refine ⟨hkept', ?_⟩
  show (table.symbols ++ _).map Symbol.unfolded = table.symbols.map Symbol.unfolded ++ _
  rw [List.map_append, List.map_filterMap]
  congr 2
  funext statement
  cases statement <;> rfl

/-- The labels that waited are entered with the address. -/
theorem defineLabels_enters {address itemsEnd : Nat} {pending : List (String × Location)} {u : Unit}
    {items : List Item} (hkept : Kept table)
    (haddress : ∀ name location, Label.address items itemsEnd ⟨name, location, 0⟩ = address)
    (h : Yields (defineLabels address pending) table u table') :
    Enters ((Label.waiting pending).map (Label.symbol items itemsEnd)) table table' := by
  induction pending generalizing table with
  | nil =>
      obtain ⟨-, rfl⟩ := yields_pure.mp h
      exact .of_unfolded_eq hkept rfl
  | cons first rest ih =>
      simp only [defineLabels, yields_bind, yields_update] at h
      obtain ⟨_, table₁, hdefine, h⟩ := h
      have hfirst : Enters [Label.symbol items itemsEnd ⟨first.1, first.2, 0⟩] table table₁ := by
        rw [Label.symbol, haddress]
        exact .define hkept rfl hdefine
      exact hfirst.trans (ih hfirst.kept h)

/-- The first pass over the items enters the labels, each with its address. -/
theorem placeItems_enters {address : Nat} {pending : List (String × Location)} {items : List Item}
    {itemsEnd : Nat} (hkept : Kept table)
    (h : Yields (placeItems limit address pending statements) table (items, itemsEnd) table') :
    Enters ((Label.waiting pending ++ Label.ofStatements statements).map
      (Label.symbol items itemsEnd)) table table' := by
  induction statements generalizing address pending items table with
  | nil =>
      simp only [placeItems, yields_bind, yields_pure] at h
      obtain ⟨_, _, hdefine, heq, rfl⟩ := h
      cases heq
      rw [Label.ofStatements, List.append_nil]
      exact defineLabels_enters hkept (fun _ _ => rfl) hdefine
  | cons first rest ih =>
      cases first with
      | label name location =>
          rw [← Label.waiting_append]
          exact ih hkept h
      | constant keyword name value location => exact ih hkept h
      | item body location =>
          obtain ⟨size, others, table₁, table₂, hsize, hlabels, -, hrest, hitems⟩ :=
            yields_placeItems_item h
          have hhead : ∀ name location,
              Label.address items itemsEnd ⟨name, location, 0⟩ = address := by
            intro name location
            rw [hitems]
            rfl
          have hsize := bodySize_enters hkept hsize
          have hlabels := defineLabels_enters hsize.kept hhead hlabels
          have hrest := ih hlabels.kept hrest
          subst hitems
          rw [Label.ofStatements, List.map_append, List.map_map]
          -- seen from the rest, the labels after the item are one item nearer
          exact (hsize.trans hlabels).trans hrest

/-- An item lists the labels that stand before it and after the item before it. -/
theorem placeItems_labels {address : Nat} {pending : List (String × Location)} {items : List Item}
    {itemsEnd : Nat}
    (h : Yields (placeItems limit address pending statements) table (items, itemsEnd) table') :
    ∀ index item, items[index]? = some item →
      item.labels =
        Label.namesAt index (Label.waiting pending ++ Label.ofStatements statements) := by
  induction statements generalizing address pending items table with
  | nil =>
      simp only [placeItems, yields_bind, yields_pure] at h
      obtain ⟨_, _, -, heq, -⟩ := h
      cases heq
      intro index item hitem
      cases hitem
  | cons first rest ih =>
      cases first with
      | label name location =>
          -- a label joins those that wait for the next item
          rw [← Label.waiting_append]
          exact ih h
      | constant keyword name value location => exact ih h
      | item body location =>
          obtain ⟨size, others, table₁, table₂, -, -, -, hrest, rfl⟩ := yields_placeItems_item h
          intro index item hitem
          rw [Label.namesAt_append, Label.ofStatements]
          -- the item takes the labels that wait, and those found later count from the one behind it
          cases index with
          | zero =>
              obtain rfl := Option.some.inj hitem
              rw [Label.namesAt_zero_waiting, Label.namesAt_zero_later, List.append_nil]
          | succ index =>
              rw [Label.namesAt_succ_waiting, Label.namesAt_succ_later]
              exact ih hrest index item hitem

/-- The items are those of the program in order. -/
theorem placeItems_source {address : Nat} {pending : List (String × Location)} {items : List Item}
    {itemsEnd : Nat}
    (h : Yields (placeItems limit address pending statements) table (items, itemsEnd) table') :
    items.map (fun item => (item.body, item.location)) = Statement.items statements := by
  induction statements generalizing address pending items table with
  | nil =>
      simp only [placeItems, yields_bind, yields_pure] at h
      obtain ⟨-, -, -, heq, -⟩ := h
      cases heq
      rfl
  | cons first rest ih =>
      cases first with
      | label name location => exact ih h
      | constant keyword name value location => exact ih h
      | item body location =>
          obtain ⟨size, others, table₁, table₂, -, -, -, hrest, rfl⟩ := yields_placeItems_item h
          exact congrArg ((body, location) :: ·) (ih hrest)

/-! ## The whole pass -/

/-- A jump is needed in front of a program that starts with data and has code, if it is asked
for. -/
def NeedsJump (withEntryJump : Bool) (statements : List Statement) : Prop :=
  withEntryJump = true ∧
    (∃ first rest, Statement.items statements = first :: rest ∧ first.1.isCode = false) ∧
    ∃ item ∈ Statement.items statements, item.1.isCode = true

/-- What the first pass makes of a program, and of its names. -/
structure Addressed (withEntryJump : Bool) (statements : List Statement) (layout : Layout)
    (table : SymbolTable) : Prop where
  source_eq : layout.sourceItems.map (fun item => (item.body, item.location)) =
    Statement.items statements
  jump : NeedsJump withEntryJump statements →
    ∃ first, layout.sourceItems.find? Item.isCode = some first ∧
      layout.items = jumpTo first :: layout.sourceItems
  no_jump : ¬NeedsJump withEntryJump statements → layout.items = layout.sourceItems
  address_eq : ∀ before item after, layout.items = before ++ item :: after →
    item.address = (before.map Item.size).sum
  itemsEnd_eq : layout.itemsEnd = (layout.items.map Item.size).sum
  label_value : ∀ before name location after, statements = before ++ .label name location :: after →
    table.value? name = some
      (((layout.sourceItems[(Statement.items before).length]?.map Item.address).getD
        layout.itemsEnd : Nat) : Int)
  label_listed : ∀ index item, layout.sourceItems[index]? = some item →
    ∀ name, name ∈ item.labels ↔ ∃ location before after,
      statements = before ++ .label name location :: after ∧
        (Statement.items before).length = index

/-- The bodies of a program are those of its items. -/
theorem bodies_eq_map (statements : List Statement) :
    bodies statements = (Statement.items statements).map Prod.fst := by
  induction statements with
  | nil => rfl
  | cons first rest ih =>
      cases first with
      | label _ _ => exact ih
      | constant _ _ _ _ => exact ih
      | item body location => exact congrArg (body :: ·) ih

/-- A jump is put in front exactly if the program starts with data and has code, and a jump is
wanted. -/
theorem jumps_iff {withEntryJump : Bool} :
    jumps withEntryJump statements = true ↔ NeedsJump withEntryJump statements := by
  rw [jumps, Bool.and_eq_true, NeedsJump, startsWithData, bodies_eq_map]
  refine and_congr_right fun _ => ?_
  cases hitems : Statement.items statements with
  | nil => simp
  | cons first rest =>
      rw [List.map_cons]
      simp only [Bool.and_eq_true, Bool.not_eq_true', List.any_map, List.any_eq_true,
        Function.comp_apply]
      constructor
      · rintro ⟨hfirst, item, hmem, hcode⟩
        exact ⟨⟨first, rest, rfl, hfirst⟩, item, List.mem_cons_of_mem _ hmem, hcode⟩
      · rintro ⟨⟨_, _, heq, hfirst⟩, item, hmem, hcode⟩
        obtain ⟨rfl, rfl⟩ := List.cons.inj heq
        -- the first item is data, so the code is among the others
        rcases List.mem_cons.mp hmem with rfl | hmem
        · exact absurd (hcode.symm.trans hfirst) (by decide)
        · exact ⟨hfirst, item, hmem, hcode⟩

/-- The constants come before the labels. -/
theorem resolve_enters {withEntryJump : Bool} {layout : Layout} (hkept : Kept table)
    (h : Yields (resolve limit withEntryJump statements) table layout table') :
    Enters (statements.filterMap Statement.entry? ++ (Label.ofStatements statements).map
      (Label.symbol layout.sourceItems layout.itemsEnd)) table table' := by
  obtain ⟨table₁, hconstants, hplace, -, -⟩ := exists_placeItems_of_resolve h
  have hconstants := defineConstants_enters hkept hconstants
  exact hconstants.trans (placeItems_enters hconstants.kept hplace)

/-- The first pass gives every item the address after the one before it, and every label the address
of its item. -/
theorem addressed_of_resolve {withEntryJump : Bool} {layout : Layout} (hkept : Kept table)
    (h : Yields (resolve limit withEntryJump statements) table layout table') :
    Addressed withEntryJump statements layout table' := by
  have henters := resolve_enters hkept h
  obtain ⟨table₁, -, hplace, hitems, hcontiguous⟩ := exists_placeItems_of_resolve h
  -- the labels enter the table by `henters`, the items stand one after the other by `hcontiguous`
  refine
    { source_eq := placeItems_source hplace
      jump := fun hneeds => ?_
      no_jump := fun hneeds => ?_
      address_eq := fun before item after hsplit => ?_
      itemsEnd_eq := by rw [hcontiguous.stop_eq, Nat.zero_add]
      label_value := fun before name location after hsplit => ?_
      label_listed := fun index item hitem name => ?_ }
  -- the jump goes to the first operation
  · have hjumps := jumps_iff.mpr hneeds
    obtain ⟨first, hfirst⟩ := exists_code_of_startsWithData (placeItems_contiguous hplace).2.1
      (startsWithData_of_jumps hjumps)
    rw [if_pos hjumps, entryJump_eq hfirst] at hitems
    exact ⟨first, hfirst, hitems⟩
  · rw [if_neg (fun hjumps => hneeds (jumps_iff.mp hjumps))] at hitems
    exact hitems
  · rw [hsplit] at hcontiguous
    rw [hcontiguous.address_eq, Nat.zero_add]
  · have hmem : (⟨name, location, (Statement.items before).length⟩ : Label) ∈
        Label.ofStatements statements :=
      Label.mem_ofStatements.mpr ⟨before, after, hsplit, rfl⟩
    -- labels have their value in the table at once, constants only when they are folded
    have hlabel : (Label.symbol layout.sourceItems layout.itemsEnd
        ⟨name, location, (Statement.items before).length⟩).kind ≠ .constant :=
      fun hkind => by cases hkind
    exact henters.value?_eq (List.mem_append_right _ (List.mem_map_of_mem hmem)) hlabel
  · rw [placeItems_labels hplace index item hitem, Label.mem_namesAt]
    exact exists_congr fun location => Label.mem_ofStatements

end Layout

/-- The constants of the command line are entered in their order. -/
theorem Assembly.names_definePredefined {table table' : SymbolTable} {defines : Defines}
    (h : definePredefined table defines = .ok table') :
    table'.symbols.map Symbol.name = table.symbols.map Symbol.name ++ defines.map Prod.fst := by
  induction defines generalizing table with
  | nil =>
      obtain rfl := Except.ok.inj h
      rw [List.map_nil, List.append_nil]
  | cons first rest ih =>
      obtain ⟨table₁, hfirst, hrest⟩ := bind_eq_ok.mp h
      obtain ⟨-, rfl⟩ := define_eq_ok.mp hfirst
      rw [ih hrest]
      simp

namespace Layout

/-- The first pass gives addresses that are sums of sizes, to items and through them to labels, and
no name is defined twice.  If all labels fit into a cell, then the sizes are those that the bodies
have after the pass. -/
theorem resolve_addressed {arith : Arithmetic} {defines : Defines} {table table' : SymbolTable}
    {limit : Int} {withEntryJump : Bool} {statements : List Statement} {layout : Layout}
    (hpredefined : Assembly.definePredefined (SymbolTable.empty arith) defines = .ok table)
    (h : Yields (resolve limit withEntryJump statements) table layout table') :
    Addressed withEntryJump statements layout table' ∧
      (defines.map Prod.fst ++ statements.filterMap Statement.constantName? ++
        statements.filterMap Statement.labelName?).Nodup ∧
      ((layout.itemsEnd : Int) ≤ arith.width.max →
        ∀ item ∈ layout.items, item.body.size? arith.width table'.value? = some item.size) := by
  have hkept : Kept table := Assembly.kept_definePredefined (backed_empty arith).kept hpredefined
  refine ⟨addressed_of_resolve hkept h, ?_, fun hfits => ?_⟩
  · have henters := resolve_enters hkept h
    have hnames := henters.names_eq
    rw [Assembly.names_definePredefined hpredefined, List.map_append, Statement.names_entry?,
      List.map_map] at hnames
    have hnodup := henters.kept.nodup
    rw [hnames, ← List.append_assoc] at hnodup
    rw [← Label.names_ofStatements]
    exact hnodup
  · -- every value that fits is allowed for every symbol
    let range : ValueRange arith.width := ⟨fun _ value => arith.width.Fits value, id, id⟩
    have hlabels : ∀ label : Nat, label ≤ layout.itemsEnd → range.Holds .label label :=
      fun label hle => Width.fits_of_nonneg (by omega) (by omega)
    have hsound := (Assembly.definePredefined_sound (.empty range) hpredefined).1.sound
    exact (resolve_sound hlabels hsound h).2.1.sizes

/-- Data and code with labels between them, a constant that is defined after its use, and a label at
the end. -/
def mixedProgram (place : Location) : List Statement :=
  [.label "table" place, .item (.reserve .quad (.sym "cells" none)) place, .label "text" place,
    .constant .equ "cells" (.bin .mul (.sym "step" none) (.num 2 none)) place, .label "bytes" place,
    .item (.data .byte [.text "ab", .value (.num 1 none)]) place, .label "start" place,
    .item (.operation (.add ⟨.memory (.sym "table" none), place⟩
      ⟨.memory (.sym "text" none), place⟩)) place, .label "end" place]

theorem resolve_addressed_mixedProgram :
    ∃ table layout table',
      Assembly.definePredefined (SymbolTable.empty {}) [("step", 2)] = .ok table ∧
      Yields (resolve 100 true (mixedProgram .predefined)) table layout table' ∧
      layout.items.map Item.address = [0, 3, 7, 10] ∧ layout.itemsEnd = 19 ∧
      Addressed true (mixedProgram .predefined) layout table' ∧
      (["step"] ++ ["cells"] ++ ["table", "text", "bytes", "start", "end"]).Nodup ∧
      ∀ item ∈ layout.items, item.body.size? Width.default table'.value? = some item.size := by
  -- the layout is evaluated once; the theorem is applied to what comes out
  have hok : ((Assembly.definePredefined (SymbolTable.empty {}) [("step", 2)]).toOption.bind
      fun table => ((resolve 100 true (mixedProgram .predefined)).run table).1.toOption).map
        (fun layout => (layout.items.map Item.address, layout.itemsEnd)) =
        some ([0, 3, 7, 10], 19) := by
    decide +kernel
  rcases htable : Assembly.definePredefined (SymbolTable.empty {}) [("step", 2)] with fault | table
  · rw [htable] at hok
    cases hok
  · rw [htable] at hok
    rcases hrun : (resolve 100 true (mixedProgram .predefined)).run table with
      ⟨fault | layout, table'⟩
    · simp only [Except.toOption, Option.bind_some, hrun] at hok
      cases hok
    · simp only [Except.toOption, Option.bind_some, hrun, Option.map_some, Option.some.injEq,
        Prod.mk.injEq] at hok
      obtain ⟨haddresses, hend⟩ := hok
      obtain ⟨hplaced, hnames, hsizes⟩ := resolve_addressed htable hrun
      exact ⟨table, layout, table', rfl, hrun, haddresses, hend, hplaced, hnames,
        hsizes (by rw [hend]; decide)⟩

end Layout

end Subleq
