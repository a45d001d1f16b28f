import Mathlib
import Subleq.Files
import Subleq.Loading
import Subleq.Proofs.Assembly
import Subleq.Proofs.Folding
import Subleq.Proofs.JsonRoundTrip
import Subleq.Proofs.Representable
import Subleq.Proofs.Utf8
import Subleq.Work

/-!
# Stored images

An image that is written as JSON and loaded again is the same image, but for its listing
(`Image.loadImage_of_write`).  The conditions are that each of its maps has every key once, that
the kinds are those of the symbols (`Image.Storable`), and that no integer in it has too many digits
(`Image.IsShort`); otherwise nothing is written.  Assembly sees to the first two
(`Assembly.storable_of_assemble`), and to the last one unless the cells are very wide
(`Assembly.isShort_of_assemble`).

What is loaded is a `Document` of JSON values, so the theorem compares it with the document of the
image (`Image.toDocument`), from which everything but the listing can be got back
(`Image.toDocument_inj`).  On the way there the text passes through a file, which brings back every
text without carriage returns (`Storage.readText_of_read`).
-/

namespace Subleq

namespace OrderedMap

variable {α β : Type} [BEq α] [LawfulBEq α]

/-- What has been put into a map is found. -/
theorem get?_put (map : OrderedMap α β) (key : α) (value : β) :
    get? (put key value map) key = some value := by
  rw [get?]
  induction map with
  | nil => simp [put]
  | cons pair map ih =>
      rw [put]
      split_ifs with hkey
      · rw [List.lookup_cons, hkey]
      · rw [List.lookup_cons, Bool.eq_false_of_not_eq_true hkey]
        exact ih

/-- What is in a map is found if no key is there twice. -/
theorem get?_of_mem {map : OrderedMap α β} {pair : α × β} (hnodup : (keys map).Nodup)
    (h : pair ∈ map) : get? map pair.1 = some pair.2 := by
  rw [get?]
  induction map with
  | nil => cases h
  | cons first map ih =>
      rw [keys, List.map_cons, List.nodup_cons] at hnodup
      rw [List.lookup_cons]
      rcases List.mem_cons.mp h with rfl | hmem
      · rw [beq_self_eq_true]
      · have hne : pair.1 ≠ first.1 := fun heq => hnodup.1 (heq ▸ List.mem_map_of_mem hmem)
        rw [beq_eq_false_iff_ne.mpr hne]
        exact ih hnodup.2 hmem

end OrderedMap

/-! ## Texts as code points -/

namespace Text

/-- The code points of a text are those of characters. -/
theorem isValidChar_of_mem_codes {text : String} {code : Nat} (h : code ∈ codes text) :
    code.isValidChar := by
  obtain ⟨c, -, rfl⟩ := List.mem_map.mp h
  exact c.valid

/-- Texts with the same code points are equal. -/
theorem codes_injective : Function.Injective codes := by
  intro text text' h
  have hchars : text.toList = text'.toList :=
    List.map_injective_iff.mpr (fun _ _ => Char.toNat_inj.mp) h
  exact String.toList_injective hchars

/-- Every character comes back from its code point. -/
theorem char?_toNat (c : Char) : char? c.toNat = some c := by
  have hvalid : c.toNat.isValidChar := c.valid
  have hhalf : isHalf c.toNat = false := by
    simp only [isHalf, isHighHalf, isLowHalf, Bool.or_eq_false_iff, Bool.and_eq_false_iff,
      decide_eq_false_iff_not]
    rcases hvalid with h | h <;> omega
  rw [char?, hhalf, Char.ofNat_toNat]
  rfl

/-- The code points of a text are those of no other. -/
theorem ofCodes_codes (text : String) : ofCodes (codes text) = text := by
  have hchars : (codes text).map (fun code => (char? code).getD '�') = text.toList := by
    rw [codes, List.map_map]
    refine (List.map_congr_left fun c _ => ?_).trans (List.map_id _)
    rw [Function.comp_apply, char?_toNat, Option.getD_some, id_eq]
  rw [ofCodes, hchars, String.ofList_toList]

/-! ## Line ends in files -/

/-- A plain text has no carriage returns. -/
theorem notMem_return_of_isPlain {text : List Char} (h : text.all Json.isPlain = true) :
    '\r' ∉ text := by
  intro hmem
  exact absurd (List.all_eq_true.mp h '\r' hmem) (by decide)

/-- A text whose only line ends are line feeds is kept as it is. -/
theorem unifyNewlines_of_notMem {text : List Char} (h : '\r' ∉ text) :
    unifyNewlines text = text := by
  induction text with
  | nil => rfl
  | cons c text ih =>
      rw [List.mem_cons, not_or] at h
      unfold unifyNewlines
      split
      case h_1 heq => cases heq
      case h_2 heq => exact absurd (List.cons.inj heq).1.symm h.1
      case h_3 heq => exact absurd (List.cons.inj heq).1.symm h.1
      case h_4 heq =>
        obtain ⟨rfl, rfl⟩ := List.cons.inj heq
        rw [ih h.2]

end Text

/-! ## Files -/

namespace Files

variable {files files' : Files} {path : Path}

/-- Writing a file does not change the way to any place. -/
theorem follow_of_directories (hdirs : files'.directories = files.directories) {place found : Place}
    {names : List String} (h : files.follow path place names = .ok found) :
    files'.follow path place names = .ok found := by
  have hdir : ∀ place, files'.isDirectory place = files.isDirectory place := fun place => by
    rw [isDirectory, hdirs, isDirectory]
  -- The way leads through directories only; what the files hold is looked at when it ends early.
  induction names generalizing place with
  | nil => exact h
  | cons name names ih =>
      rw [follow] at h ⊢
      rw [hdir]
      split_ifs at h ⊢ with hplace hname
      exact ih h

theorem locate_of_directories (hdirs : files'.directories = files.directories) {place : Place}
    (h : files.locate path = .ok place) : files'.locate path = .ok place := by
  rw [locate] at h ⊢
  split_ifs at h ⊢ with hcut hlong
  exact follow_of_directories hdirs h

/-- What has been written is read. -/
theorem read_of_write {text : String} (h : files.write path text = .ok files') :
    files'.read path = .ok (Text.Utf8.encode text.toList) := by
  rw [write, Folding.bind_eq_ok] at h
  obtain ⟨place, hlocate, h⟩ := h
  split_ifs at h with hdir
  have hfiles := Except.ok.inj h
  have hdirs : files'.directories = files.directories := by rw [← hfiles]
  have hcontents : files'.contents =
      OrderedMap.put place (Text.Utf8.encode text.toList) files.contents := by rw [← hfiles]
  rw [read, locate_of_directories hdirs hlocate]
  simp only [bind, Except.bind]
  rw [if_neg (by rwa [isDirectory, hdirs]), content?, hcontents, OrderedMap.get?_put]

end Files

/-! ## Images as documents -/

namespace Json

/-- The names of an object are written as code points. -/
theorem object_eq (fields : List (String × Json)) :
    object fields = .obj (fields.map fun field => (Text.codes field.1, field.2)) := rfl

/-- An object with a field for each row. -/
theorem object_map {α : Type} (rows : List α) (name : α → String) (value : α → Json) :
    object (rows.map fun row => (name row, value row)) =
      .obj (rows.map fun row => (Text.codes (name row), value row)) := by
  rw [object_eq, List.map_map]
  rfl

/-- Names that are different texts are different. -/
theorem field?_codes (name : String) (fields : List (String × Json)) :
    field? name (fields.map fun field => (Text.codes field.1, field.2)) = fields.lookup name := by
  rw [field?]
  induction fields with
  | nil => rfl
  | cons field fields ih =>
      have hname : (Text.codes name == Text.codes field.1) = (name == field.1) := by
        rw [Bool.eq_iff_iff, beq_iff_eq, beq_iff_eq, Text.codes_injective.eq_iff]
      rw [List.map_cons, List.lookup_cons, List.lookup_cons, hname, ih]

/-- An object comes back whose names are texts, each of them once. -/
theorem writable_object {fields : List (String × Json)} (hnames : (OrderedMap.keys fields).Nodup)
    (hvalues : ∀ field ∈ fields, field.2.Writable) : (object fields).Writable := by
  rw [object_eq]
  refine .obj ?_ ?_ ?_
  · have hcodes : OrderedMap.keys (fields.map fun field => (Text.codes field.1, field.2)) =
        (OrderedMap.keys fields).map Text.codes := by
      rw [OrderedMap.keys, OrderedMap.keys, List.map_map, List.map_map]
      rfl
    rw [hcodes]
    exact hnames.map Text.codes_injective
  · intro field hfield code hcode
    obtain ⟨own, -, rfl⟩ := List.mem_map.mp hfield
    exact Text.isValidChar_of_mem_codes hcode
  · intro field hfield
    obtain ⟨own, hown, rfl⟩ := List.mem_map.mp hfield
    exact hvalues own hown

theorem writable_ofString (text : String) : (ofString text).Writable :=
  .str fun _ => Text.isValidChar_of_mem_codes

end Json

namespace Image

variable {image : Image}

/-- The symbols, the pool and the temp fields have each key once, and the kinds are those of the
symbols, in the same order. -/
structure Storable (image : Image) : Prop where
  symbols_nodup : (OrderedMap.keys image.symbols).Nodup
  keys_kinds : OrderedMap.keys image.kinds = OrderedMap.keys image.symbols
  pool_nodup : (OrderedMap.keys image.pool).Nodup
  temps_nodup : (OrderedMap.keys image.temps).Nodup

/-- The image as it is loaded: all of it but the listing. -/
def toDocument (image : Image) : Document where
  cells := image.cells
  cellBits := .int image.cellBits
  entry := .int image.entry
  symbols := image.symbols.map fun pair => (Text.codes pair.1, .int pair.2)
  kinds := image.kinds.map fun pair => (Text.codes pair.1, .ofString pair.2)
  pool := image.pool.map fun pair => (.int pair.1, .int pair.2)
  temps := .obj (image.temps.map fun pair => (Text.codes pair.1, .int pair.2))

/-- What is stored of a symbol. -/
def symbolJson (image : Image) (pair : String × Int) : Json :=
  .object [("kind", .ofString (image.kindOf pair.1)), ("value", .int pair.2)]

/-- What is stored of a pooled literal. -/
def literalJson (pair : Int × Int) : Json :=
  .object [("value", .int pair.1), ("address", .int pair.2)]

/-- What is stored of an image. -/
def storedFields (image : Image) : List (String × Json) :=
  [("cell_bits", .int image.cellBits), ("entry", .int image.entry),
    ("cells", .arr (image.cells.map .int)),
    ("symbols", .object (image.symbols.map fun pair => (pair.1, image.symbolJson pair))),
    ("pool", .arr (image.pool.map literalJson)),
    ("temps", .object (image.temps.map fun pair => (pair.1, .int pair.2)))]

/-- The stored fields are all that is stored. -/
theorem toJson_eq (image : Image) : image.toJson = .object image.storedFields := rfl

/-- The integers that are stored of an image. -/
def integers (image : Image) : List Int :=
  image.cellBits :: image.entry :: (image.cells ++ image.symbols.map Prod.snd
    ++ image.pool.map Prod.fst ++ image.pool.map Prod.snd ++ image.temps.map Prod.snd)

/-- All integers of an image can be written. -/
def IsShort (image : Image) : Prop := ∀ n ∈ image.integers, Digits.isWritable n = true

/-- What has to be short, part by part. -/
theorem isShort_iff : image.IsShort ↔
    Digits.isWritable image.cellBits = true ∧ Digits.isWritable image.entry = true ∧
    (∀ cell ∈ image.cells, Digits.isWritable cell = true) ∧
    (∀ pair ∈ image.symbols, Digits.isWritable pair.2 = true) ∧
    (∀ pair ∈ image.pool, Digits.isWritable pair.1 = true ∧ Digits.isWritable pair.2 = true) ∧
    ∀ pair ∈ image.temps, Digits.isWritable pair.2 = true := by
  simp only [IsShort, integers, List.forall_mem_cons, List.forall_mem_append, List.forall_mem_map,
    forall_and, and_assoc]

/-- A symbol with a short value can be written. -/
theorem writable_symbolJson {pair : String × Int} (h : Digits.isWritable pair.2 = true) :
    (image.symbolJson pair).Writable := by
  have hnames : ["kind", "value"].Nodup := by decide
  refine Json.writable_object hnames ?_
  rintro field (_ | ⟨_, _ | ⟨_, ⟨⟩⟩⟩)
  · exact Json.writable_ofString _
  · exact .int h

/-- A literal with a short value and a short address can be written. -/
theorem writable_literalJson {pair : Int × Int}
    (h : Digits.isWritable pair.1 = true ∧ Digits.isWritable pair.2 = true) :
    (literalJson pair).Writable := by
  have hnames : ["value", "address"].Nodup := by decide
  refine Json.writable_object hnames ?_
  rintro field (_ | ⟨_, _ | ⟨_, ⟨⟩⟩⟩)
  · exact .int h.1
  · exact .int h.2

/-- Nothing in an image keeps it from being read back. -/
theorem Storable.writable (h : image.Storable) (hshort : image.IsShort) :
    image.toJson.Writable := by
  obtain ⟨hbits, hentry, hcells, hsymbols, hpool, htemps⟩ := isShort_iff.mp hshort
  have hnames : ["cell_bits", "entry", "cells", "symbols", "pool", "temps"].Nodup := by decide
  rw [toJson_eq]
  refine Json.writable_object hnames ?_
  simp only [storedFields, List.forall_mem_cons]
  -- the six fields in their order; the symbols and the temps have to have different names
  refine ⟨.int hbits, .int hentry, .arr ?_, Json.writable_object ?_ ?_, .arr ?_,
    Json.writable_object ?_ ?_, nofun⟩
  · exact List.forall_mem_map.mpr fun cell hcell => .int (hcells cell hcell)
  · rw [OrderedMap.keys, List.map_map]
    exact h.symbols_nodup
  · exact List.forall_mem_map.mpr fun pair hpair => writable_symbolJson (hsymbols pair hpair)
  · exact List.forall_mem_map.mpr fun pair hpair => writable_literalJson (hpool pair hpair)
  · rw [OrderedMap.keys, List.map_map]
    exact h.temps_nodup
  · exact List.forall_mem_map.mpr fun pair hpair => .int (htemps pair hpair)

/-- An object can be written exactly if its fields can. -/
theorem isWritable_object {fields : List (String × Json)} :
    (Json.object fields).isWritable = true ↔ ∀ field ∈ fields, field.2.isWritable = true := by
  rw [Json.object_eq, Json.isWritable, Json.haveWritable_iff, List.forall_mem_map]

/-- What is stored of an image can be written exactly if its integers can. -/
theorem isWritable_toJson : image.toJson.isWritable = true ↔ image.IsShort := by
  simp only [toJson_eq, isWritable_object, storedFields, symbolJson, literalJson, Json.ofString,
    List.forall_mem_cons, List.forall_mem_map, Json.isWritable, Json.areWritable_iff, isShort_iff]
  simp

/-- The text of an image with short integers. -/
theorem renderJson_of_isShort (h : image.IsShort) :
    image.renderJson = .ok (String.ofList (Json.pretty 0 image.toJson ++ ['\n'])) := by
  rw [renderJson, Json.render, isWritable_toJson.mpr h]
  rfl

/-- An image with an integer of too many digits has no text. -/
theorem renderJson_of_not_isShort (h : ¬ image.IsShort) :
    image.renderJson = .error .unwritten := by
  have hlong : image.toJson.isWritable = false :=
    Bool.eq_false_of_not_eq_true (mt isWritable_toJson.mp h)
  rw [renderJson, Json.render_eq_error_iff.mpr ⟨hlong, rfl⟩]
  rfl

/-- The kind of each symbol is the one that stands beside it. -/
theorem Storable.map_kindOf (h : image.Storable) :
    (image.symbols.map fun pair => (pair.1, image.kindOf pair.1)) = image.kinds := by
  have hnodup : (OrderedMap.keys image.kinds).Nodup := h.keys_kinds ▸ h.symbols_nodup
  have hkind : ∀ pair ∈ image.kinds, image.kindOf pair.1 = pair.2 := by
    intro pair hpair
    rw [kindOf, OrderedMap.get?_of_mem hnodup hpair, Option.getD_some]
  -- the kinds are listed under the names of the symbols, in the same order
  calc (image.symbols.map fun pair => (pair.1, image.kindOf pair.1))
      = (OrderedMap.keys image.symbols).map fun name => (name, image.kindOf name) := by
        rw [OrderedMap.keys, List.map_map]
        rfl
    _ = image.kinds.map fun pair => (pair.1, image.kindOf pair.1) := by
        rw [← h.keys_kinds, OrderedMap.keys, List.map_map]
        rfl
    _ = image.kinds := by
        refine (List.map_congr_left fun pair hpair => ?_).trans (List.map_id _)
        rw [hkind pair hpair]
        rfl

end Image

namespace Document

variable {image : Image}

theorem mapM_cell (cells : List Int) : (cells.map Json.int).mapM cell = .ok cells := by
  rw [Folding.mapM_eq_ok, List.forall₂_map_left_iff, List.forall₂_same]
  exact fun _ _ => rfl

/-- A column holds one field of each row. -/
theorem column_map {α : Type} {name : String} {rows : List α} {key : α → Text.Codes}
    {value entry : α → Json} (h : ∀ row ∈ rows, fieldOf name (value row) = .ok (entry row)) :
    column name (rows.map fun row => (key row, value row)) =
      .ok (rows.map fun row => (key row, entry row)) := by
  rw [column, Folding.mapM_eq_ok, List.forall₂_map_left_iff, List.forall₂_map_right_iff,
    List.forall₂_same]
  intro row hrow
  rw [Folding.bind_eq_ok]
  exact ⟨entry row, h row hrow, rfl⟩

theorem fieldOf_object {name : String} {fields : List (String × Json)} {value : Json}
    (h : fields.lookup name = some value) : fieldOf name (.object fields) = .ok value := by
  rw [Json.object_eq, fieldOf, Json.field?_codes, h]

/-- A new key comes last. -/
theorem putKey_of_notMem {pool : OrderedMap Int Int} {key address : Int}
    (h : key ∉ OrderedMap.keys pool) :
    putKey (.int key) (.int address) (pool.map fun pair => (.int pair.1, .int pair.2)) =
      (pool ++ [(key, address)]).map fun pair => (.int pair.1, .int pair.2) := by
  induction pool with
  | nil => rfl
  | cons pair pool ih =>
      rw [OrderedMap.keys, List.map_cons, List.mem_cons, not_or] at h
      have hkey : (Json.int key).sameKey (.int pair.1) = false := by
        simp [Json.sameKey, Json.int?, h.1]
      rw [List.map_cons, putKey, hkey, if_neg Bool.false_ne_true, ih h.2]
      rfl

/-- The entries of a pool come back in order if no value occurs twice. -/
theorem readPool_literalJson {before pool : OrderedMap Int Int}
    (h : (OrderedMap.keys (before ++ pool)).Nodup) :
    readPool (before.map fun pair => (.int pair.1, .int pair.2)) (pool.map Image.literalJson) =
      .ok ((before ++ pool).map fun pair => (.int pair.1, .int pair.2)) := by
  induction pool generalizing before with
  | nil => rw [List.append_nil]; rfl
  | cons pair pool ih =>
      have hvalue : fieldOf "value" (Image.literalJson pair) = .ok (.int pair.1) :=
        fieldOf_object rfl
      have haddress : fieldOf "address" (Image.literalJson pair) = .ok (.int pair.2) :=
        fieldOf_object rfl
      rw [List.map_cons, readPool, hvalue, haddress]
      simp only [bind, Except.bind, checkKey, Json.isKey, if_true]
      rw [putKey_of_notMem (OrderedMap.notMem_of_nodup h), ih (by rwa [List.append_assoc]),
        List.append_assoc, List.singleton_append]

/-- The fields of an image are read as the image. -/
theorem ofFields_storedFields (h : image.Storable) :
    ofFields (image.storedFields.map fun field => (Text.codes field.1, field.2)) =
      .ok image.toDocument := by
  -- What each of the six fields is found to hold.
  have hcells : fieldOf "cells" (.obj (image.storedFields.map fun field =>
      (Text.codes field.1, field.2))) = .ok (.arr (image.cells.map .int)) := fieldOf_object rfl
  have hbits : image.storedFields.lookup "cell_bits" = some (.int image.cellBits) := rfl
  have hentry : image.storedFields.lookup "entry" = some (.int image.entry) := rfl
  have hsymbols : image.storedFields.lookup "symbols" = some (.obj (image.symbols.map fun pair =>
      (Text.codes pair.1, image.symbolJson pair))) :=
    congrArg some (Json.object_map image.symbols Prod.fst image.symbolJson)
  have hpool : image.storedFields.lookup "pool" = some (.arr (image.pool.map Image.literalJson)) :=
    rfl
  have htemps : image.storedFields.lookup "temps" = some image.toDocument.temps :=
    congrArg some (Json.object_map image.temps Prod.fst fun pair => .int pair.2)
  -- What becomes of the symbols and of the pool.
  have hvalues : column "value" (image.symbols.map fun pair =>
      (Text.codes pair.1, image.symbolJson pair)) = .ok image.toDocument.symbols :=
    column_map fun pair _ => fieldOf_object rfl
  have hkinds : column "kind" (image.symbols.map fun pair =>
      (Text.codes pair.1, image.symbolJson pair)) = .ok image.toDocument.kinds := by
    rw [Image.toDocument, ← h.map_kindOf, List.map_map]
    exact column_map fun pair _ => fieldOf_object rfl
  have hliterals : readPool [] (image.pool.map Image.literalJson) = .ok image.toDocument.pool :=
    @readPool_literalJson [] image.pool h.pool_nodup
  rw [ofFields, hcells]
  simp only [bind, Except.bind, Json.field?_codes, partsOf, Json.parts?, mapM_cell, hsymbols,
    Option.getD_some, fieldsOf, hvalues, hkinds, hpool, hliterals, hbits, hentry, htemps]
  rfl

/-- The text of an image is read as the image. -/
theorem read_pretty (h : image.Storable) (hshort : image.IsShort) (path : String) :
    read path (Json.pretty 0 image.toJson ++ ['\n']) = .ok image.toDocument := by
  obtain ⟨-, hread⟩ := Json.exists_render (h.writable hshort)
  -- The opening brace tells the text from a list of words.
  obtain ⟨more, hmore⟩ : ∃ more, Json.pretty 0 image.toJson ++ ['\n'] = '\x7b' :: more := ⟨_, rfl⟩
  have hofJson : read path ('\x7b' :: more) = ofJson ('\x7b' :: more) := rfl
  rw [hmore, hofJson, ofJson, ← hmore, hread]
  exact ofFields_storedFields h

end Document

/-! ## Loading -/

namespace Work

variable {α β ε : Type} {files files' : Files} {transcript transcript' : Transcript} {a : α}

/-- A work goes on from where its first part ends. -/
theorem run_bind_of_ok {work : Work (StateM Files) α} {next : α → Work (StateM Files) β}
    (h : (work.run.run transcript).run files = ((.ok a, transcript'), files')) :
    ((work >>= next).run.run transcript).run files =
      ((next a).run.run transcript').run files' := by
  simp only [ExceptT.run_bind, StateT.run_bind]
  rw [h]
  rfl

/-- What the storage does is done, and nothing is said. -/
theorem run_ofStorage_of_ok {failure : ε → Failure} {action : StateM Files (Except ε α)}
    (h : action.run files = (.ok a, files')) :
    ((ofStorage failure action).run.run transcript).run files = ((.ok a, transcript), files') := by
  have hlift : (((liftM (monadLift action : StateT Transcript (StateM Files) (Except ε α)) :
      Work (StateM Files) (Except ε α))).run.run transcript).run files =
        ((.ok (.ok a), transcript), files') :=
    congrArg (fun result : Except ε α × Files =>
      (((Except.ok result.1 : Except Failure (Except ε α)), transcript), result.2)) h
  rw [ofStorage, run_bind_of_ok hlift]
  rfl

/-- A check that passes changes nothing. -/
theorem run_ofExcept_of_ok {failure : ε → Failure} {result : Except ε α} (h : result = .ok a) :
    ((ofExcept failure result : Work (StateM Files) α).run.run transcript).run files =
      ((.ok a, transcript), files) := by
  rw [h]
  rfl

end Work

/-- A file is read as the text that it holds, if that has no other line ends than line feeds. -/
theorem Storage.readText_of_read {text : List Char} (h : '\r' ∉ text) {files : Files} {path : Path}
    (hread : files.read path = .ok (Text.Utf8.encode text)) (transcript : Transcript) :
    ((Files.storage.readText path).run.run transcript).run files =
      ((.ok text, transcript), files) := by
  have hbytes : (Files.storage.read path).run files = (.ok (Text.Utf8.encode text), files) :=
    congrArg (·, files) hread
  rw [Storage.readText, Work.run_bind_of_ok (Work.run_ofStorage_of_ok hbytes),
    Work.run_bind_of_ok (Work.run_ofExcept_of_ok (Text.Utf8.decode_encode text)),
    Text.unifyNewlines_of_notMem h]
  rfl

/-- A file that holds the text of an image is loaded as the image, and nothing else happens. -/
theorem Storage.loadImage_of_read {image : Image} (h : image.Storable) (hshort : image.IsShort)
    {files : Files} {path : Path}
    (hread : files.read path = .ok (Text.Utf8.encode (Json.pretty 0 image.toJson ++ ['\n'])))
    (transcript : Transcript) :
    ((Files.storage.loadImage path).run.run transcript).run files =
      ((.ok image.toDocument, transcript), files) := by
  have hplain : (Json.pretty 0 image.toJson ++ ['\n']).all Json.isPlain = true := by
    rw [List.all_append, (h.writable hshort).all_isPlain 0]
    rfl
  have hreturn := Text.notMem_return_of_isPlain hplain
  rw [Storage.loadImage, Work.run_bind_of_ok (Storage.readText_of_read hreturn hread transcript)]
  exact Work.run_ofExcept_of_ok (Document.read_pretty h hshort path.render)

/-- An image that has no text is not written: the files stay as they are. -/
theorem Storage.writeAs_of_error {image : Image} {format : Format} {excess : Digits.Excess}
    (h : image.render format = .error excess) (files : Files) (path : Path)
    (transcript : Transcript) :
    ((Files.storage.writeAs image path format).run.run transcript).run files =
      ((.error (.excess excess), transcript), files) := by
  rw [Storage.writeAs, h]
  rfl

/-! ## Machines -/

/-- A map comes back from its JSON form. -/
theorem Loaded.intMap_jsonMap (map : OrderedMap String Int) :
    intMap (jsonMap map) = map := by
  rw [intMap, jsonMap, List.filterMap_map]
  refine (List.filterMap_congr fun pair _ => ?_).trans List.filterMap_some
  exact congrArg (fun name => some (name, pair.2)) (Text.ofCodes_codes pair.1)

/-- A width that is an integer is used as it is. -/
theorem Loading.width_int (bits : Int) : width (.int bits) = .ok bits := by
  rw [width, Json.isBlank]
  by_cases hbits : bits = 0
  · rw [hbits, beq_self_eq_true, if_pos rfl]
  · rw [beq_eq_false_iff_ne.mpr hbits, if_neg Bool.false_ne_true]

/-- A stored image is used as the image itself is. -/
theorem Loaded.ofDocument_toDocument (image : Image) :
    ofDocument image.toDocument none = .ok (ofImage image) := by
  have htemps : Loading.temps image.toDocument.temps = .ok (jsonMap image.temps) := rfl
  have hwidth : Loading.width image.toDocument.cellBits = .ok image.cellBits :=
    Loading.width_int image.cellBits
  rw [ofDocument, htemps, hwidth]
  simp only [bind, Except.bind, intMap_jsonMap]
  rfl

/-- Images that are stored alike differ in their listings at most. -/
theorem Image.toDocument_inj {image other : Image} (h : image.toDocument = other.toDocument) :
    { image with listing := other.listing } = other := by
  -- every form of a field is injective
  have hint : Function.Injective Json.int := fun _ _ => Json.int.inj
  have htext : Function.Injective Json.ofString :=
    fun _ _ heq => Text.codes_injective (Json.str.inj heq)
  have haddresses := List.map_injective_iff.mpr (Text.codes_injective.prodMap hint)
  have hkinds := List.map_injective_iff.mpr (Text.codes_injective.prodMap htext)
  have hpool := List.map_injective_iff.mpr (hint.prodMap hint)
  have hfields := Document.mk.inj h
  obtain ⟨cells, cellBits, entry, symbols, kinds, pool, temps, listing⟩ := image
  obtain ⟨cells', cellBits', entry', symbols', kinds', pool', temps', listing'⟩ := other
  obtain ⟨rfl, hbits, hentry, heq⟩ := hfields
  obtain ⟨hsymbols, heqkinds, heqpool, htemps⟩ := heq
  obtain rfl := hint hbits
  obtain rfl := hint hentry
  obtain rfl := haddresses hsymbols
  obtain rfl := hkinds heqkinds
  obtain rfl := hpool heqpool
  obtain rfl := haddresses (Json.obj.inj htemps)
  rfl

/-! ## Assembled images -/

namespace Assembly

variable {config : Config} {defines : Defines} {source file : String} {image : Image}

/-- The temp fields are in the order of their cells. -/
theorem map_fst_tempCells (address : Int) (temps : List Temp) :
    (tempCells address temps).map Prod.fst = temps.map Temp.name := by
  induction temps generalizing address with
  | nil => rfl
  | cons field temps ih => rw [tempCells, List.map_cons, ih, List.map_cons]

/-- The symbols that have a value are some of all, in the same order. -/
theorem names_resolved_sublist (symbols : List Symbol) :
    ((symbols.filterMap fun symbol => symbol.value.map (symbol, ·)).map fun pair =>
      pair.1.name).Sublist (symbols.map Symbol.name) := by
  induction symbols with
  | nil => exact .slnil
  | cons symbol symbols ih =>
      rw [List.filterMap_cons, List.map_cons]
      cases symbol.value with
      | none => exact ih.cons _
      | some value => exact ih.cons_cons _

/-- Assembly defines each name once and pools each value once. -/
theorem storable_of_assemble (h : assemble config defines source file = .ok image) :
    image.Storable := by
  obtain ⟨S⟩ := nonempty_stages h
  have hkeys : OrderedMap.keys image.symbols = S.table.resolved.map fun pair => pair.1.name := by
    rw [OrderedMap.keys, S.built.symbols_eq, List.map_map]
    rfl
  refine ⟨?_, ?_, ?_, ?_⟩
  · -- The table has each name once, and the symbols of the image are some of its own.
    rw [hkeys]
    exact (names_resolved_sublist S.table.symbols).nodup S.stored_sound.1.nodup
  · rw [hkeys, OrderedMap.keys, S.built.kinds_eq, List.map_map]
    rfl
  · -- Even the names of the pooled values are different, and so are the values.
    rw [OrderedMap.keys, S.built.pool_eq, Pool.map_fst_located]
    exact S.expanded_sound.2.1.pooled.nodup.of_map
  · rw [OrderedMap.keys, S.built.temps_eq, map_fst_tempCells]
    decide

/-- What a cell of moderate width holds can be written, and so can its addresses. -/
theorem isShort_of_assemble (h : assemble config defines source file = .ok image)
    (hbits : config.cellBits ≤ Digits.bitLimit) : image.IsShort := by
  obtain ⟨S⟩ := nonempty_stages h
  have hwidth : S.width.bits ≤ Digits.bitLimit := by
    have := S.bits_eq
    omega
  have hfits : ∀ {value}, S.width.Fits value → Digits.isWritable value = true :=
    fun hvalue => hvalue.isWritable hwidth
  -- an address is below the size, which is no larger than the half of what a cell can hold
  have haddress : ∀ {address : Int}, 0 ≤ address ∧ address < image.size →
      Digits.isWritable address = true := by
    intro address hbounds
    have hsize := S.size_le
    rw [Image.size, S.length_cells] at hbounds
    have hlow := S.width.fits_zero.1
    refine hfits ⟨by omega, ?_⟩
    rw [Layout.sizeLimit] at hsize
    omega
  refine Image.isShort_iff.mpr ⟨?_, ?_, fun cell hcell => hfits (S.fits_cells cell hcell),
    fun pair hpair => hfits (S.fits_symbols pair hpair), fun pair hpair => ⟨?_, ?_⟩,
    fun pair hpair => haddress (S.temps_bounds pair hpair)⟩
  · rw [S.built.cellBits_eq, ← S.bits_eq]
    refine @Digits.isWritable_of_le_two_pow _ 14 (by decide) ?_
    rw [Int.natAbs_natCast]
    exact hwidth.trans (by decide)
  · rw [S.built.entry_eq]
    rfl
  · have hvalue : pair.1 ∈ image.pool.map Prod.fst := List.mem_map_of_mem hpair
    rw [S.built.pool_eq, Pool.map_fst_located] at hvalue
    exact hfits (S.expanded_sound.2.1.pooled.fits _ hvalue)
  · exact haddress (S.pool_bounds pair hpair)

end Assembly

namespace Image

/-- An image whose integers can be written is written as JSON, and what has been written is loaded
with the same cells, width, entry, symbols, kinds, pool and temp fields, in the same order, and a
machine that is built from what has been loaded is the one that is built from the image.  Otherwise
the image is not written.  Every assembled image is of the first kind, unless its cells are wider
than any number that can be written. -/
theorem loadImage_of_write :
    (∀ image : Image, image.Storable → image.IsShort → ∃ text, image.render .json = .ok text ∧
      ∀ (files files' : Files) (path : Path), files.write path text = .ok files' →
        ∀ transcript, ∃ document,
          ((Files.storage.loadImage path).run.run transcript).run files' =
            ((.ok document, transcript), files') ∧
          document = image.toDocument ∧
          (∀ other : Image, document = other.toDocument →
            { other with listing := image.listing } = image) ∧
          ∃ loaded, Loaded.ofDocument document none = .ok loaded ∧
            ∀ memorySize cellBits entry,
              Machine.build loaded.program memorySize cellBits entry =
                Machine.build (.ofImage image) memorySize cellBits entry) ∧
    (∀ image : Image, ¬ image.IsShort → image.render .json = .error .unwritten ∧
      ∀ files path transcript,
        ((Files.storage.writeAs image path .json).run.run transcript).run files =
          ((.error (.excess .unwritten), transcript), files)) ∧
    ∀ config defines source file image, assemble config defines source file = .ok image →
      image.Storable ∧ (config.cellBits ≤ Digits.bitLimit → image.IsShort) := by
  -- the first two parts tell apart whether the integers can be written
  refine ⟨?_, ?_, fun _ _ _ _ _ h =>
    ⟨Assembly.storable_of_assemble h, Assembly.isShort_of_assemble h⟩⟩
  · intro image hstorable hshort
    refine ⟨_, renderJson_of_isShort hshort, ?_⟩
    intro files files' path hwrite transcript
    have hread := Files.read_of_write hwrite
    rw [String.toList_ofList] at hread
    refine ⟨image.toDocument, Storage.loadImage_of_read hstorable hshort hread transcript, rfl, ?_,
      .ofImage image, Loaded.ofDocument_toDocument image, fun _ _ _ => rfl⟩
    intro other h
    exact toDocument_inj h.symm
  · intro image hlong
    have hrender : image.render .json = .error .unwritten := renderJson_of_not_isShort hlong
    exact ⟨hrender, fun files path transcript =>
      Storage.writeAs_of_error hrender files path transcript⟩

/-- Names with quotes, controls and characters beyond the first plane, and integers of more than
sixty-four bits. -/
def unusual : Image where
  cells := [3, -5, 0, 1180591620717411303424]
  entry := -1
  symbols := [("a\"b\\\n\x01", 5), ("é𝄞\x7f", -7), ("", 0)]
  kinds := [("a\"b\\\n\x01", "LABEL"), ("é𝄞\x7f", "CONSTANT"), ("", "\t")]
  pool := [(-1, 9), (100000000000000000000, 10)]
  temps := [("T", 11), ("\r", -12)]

theorem loadImage_of_write_unusual : unusual.Storable ∧ unusual.IsShort ∧
    ∃ text files' document, unusual.render .json = .ok text ∧
      Files.empty.write (Path.ofText "image.json") text = .ok files' ∧
      ((Files.storage.loadImage (Path.ofText "image.json")).run.run {}).run files' =
        ((.ok document, {}), files') ∧
      document = unusual.toDocument ∧
      ∃ image, assemble Assembly.sumConfig [("k", 7)] Assembly.sumSource "sum" = .ok image ∧
        Assembly.sumConfig.cellBits ≤ Digits.bitLimit ∧ image.Storable ∧ image.IsShort := by
  have hstorable : unusual.Storable := ⟨by decide, by decide, by decide, by decide⟩
  have hshort : unusual.IsShort := by
    unfold IsShort
    decide +kernel
  obtain ⟨text, htext, hload⟩ := loadImage_of_write.1 unusual hstorable hshort
  obtain ⟨image, himage⟩ := Assembly.exists_assemble_sum
  obtain ⟨hstored, hwidth⟩ := loadImage_of_write.2.2 _ _ _ _ _ himage
  have hbits : Assembly.sumConfig.cellBits ≤ Digits.bitLimit := by decide
  have hwrite : Files.empty.write (Path.ofText "image.json") text = .ok _ := rfl
  obtain ⟨document, hdocument, heq, -⟩ := hload _ _ _ hwrite {}
  exact ⟨hstorable, hshort, text, _, document, htext, hwrite, hdocument, heq, image, himage, hbits,
    hstored, hwidth hbits⟩

/-- The image of a source that defines a constant and nothing else, in cells that have room for its
fifteen thousand bits. -/
def wideConstant : Image where
  cells := [0, 0, 0]
  cellBits := 20000
  symbols := [("k", 2 ^ 15000), ("$t", 0), ("$e", 1), ("$r", 2)]
  kinds := [("k", "CONSTANT"), ("$t", "TEMP_SLOT"), ("$e", "TEMP_SLOT"), ("$r", "TEMP_SLOT")]
  temps := [("$t", 0), ("$e", 1), ("$r", 2)]

/-- The keys of an image are not enough: this one has each of them once, but no text. -/
theorem renderJson_wideConstant :
    wideConstant.Storable ∧ wideConstant.render .json = .error .unwritten := by
  refine ⟨⟨by decide, by decide, by decide, by decide⟩, renderJson_of_not_isShort fun hshort => ?_⟩
  obtain ⟨-, -, -, hsymbols, -⟩ := isShort_iff.mp hshort
  have hvalue := hsymbols ("k", 2 ^ 15000) List.mem_cons_self
  rw [Digits.not_isWritable_two_pow (by decide)] at hvalue
  cases hvalue

end Image

end Subleq
