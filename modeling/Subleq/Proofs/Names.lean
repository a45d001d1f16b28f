import Subleq.Proofs.Addresses
import Subleq.Proofs.Refusal

/-!
# Names are checked before the second pass

Between the passes all names that the items of a program mention are noted, each of them has to be
defined, and all constants are folded.  So every mentioned name has a value in the table in which
the second pass starts (`Assembly.values_of_placed`): it is that of a label, which the first pass
has entered with its address, or that of a constant.  The second pass takes no value away
(`SymbolTable.KeepsValues`), and evaluating an expression over names with values can only fail for
what it computes (`SymbolTable.discipline_keepsValues`).

`Assembly.names_checked_first` puts the stages together: what refuses a program after the names have
been checked never lies in a name.
-/

namespace Subleq

open Folding SymbolTable

/-! ## What is noted -/

namespace NameSet

variable {name other : String} {names : List String}

/-- A set has one more name after an insertion. -/
theorem mem_insert : other ∈ insert name names ↔ other = name ∨ other ∈ names := by
  induction names with
  | nil => simp [insert]
  | cons first rest ih =>
      rw [insert]
      split_ifs with heq hlt
      · simp [heq]
      · simp
      · rw [List.mem_cons, ih, List.mem_cons]
        tauto

theorem mem_ofList : name ∈ ofList names ↔ name ∈ names := by
  unfold ofList
  induction names with
  | nil => rfl
  | cons first rest ih => rw [List.foldr_cons, mem_insert, ih, List.mem_cons]

end NameSet

namespace OrderedMap

variable {α β : Type} [BEq α] [LawfulBEq α] {map : OrderedMap α β} {key other : α} {value : β}

/-- A map has one more key after a change. -/
theorem mem_keys_put : other ∈ keys (put key value map) ↔ other = key ∨ other ∈ keys map := by
  induction map with
  | nil => simp [put, keys]
  | cons pair rest ih =>
      rw [put]
      split_ifs with heq
      · simp [keys, eq_of_beq heq]
      · show other ∈ pair.1 :: keys (put key value rest) ↔ other = key ∨ other ∈ pair.1 :: keys rest
        rw [List.mem_cons, ih, List.mem_cons]
        tauto

theorem mem_keys_of_get? (h : (get? map key).isSome = true) : key ∈ keys map := by
  obtain ⟨value, hvalue⟩ := Option.isSome_iff_exists.mp h
  exact List.mem_map_of_mem (mem_of_get? hvalue)

end OrderedMap

open OrderedMap (keys)

namespace SymbolTable

variable {table table' : SymbolTable} {name other : String}

/-- A mention adds its name to those that are mentioned. -/
theorem mem_keys_mention {place : Option Location} :
    other ∈ keys (table.mention name place).mentioned ↔
      other = name ∨ other ∈ keys table.mentioned := by
  unfold mention
  split
  · next hknown =>
    constructor
    · exact .inr
    · rintro (rfl | hmem)
      · exact OrderedMap.mem_keys_of_get? hknown
      · exact hmem
  · exact OrderedMap.mem_keys_put

/-- Every name that is noted has been found. -/
theorem contains_of_checkMentions {u : Unit} (h : table.checkMentions = .ok u)
    (hmem : name ∈ keys table.mentioned) : table.contains name = true := by
  obtain ⟨pair, hpair, rfl⟩ := List.mem_map.mp hmem
  unfold checkMentions at h
  split at h
  · cases h
  · next hnone =>
    have hfound := List.find?_eq_none.mp hnone pair hpair
    simpa using hfound

end SymbolTable

namespace Assembly

variable {table table' : SymbolTable} {statements : List Statement} {name : String}

/-- What occurs in an item is mentioned. -/
theorem mem_mentions {body : Body} {location : Location} {pair : Expr × Option Location}
    (hitem : .item body location ∈ statements) (hpair : pair ∈ expressions location body)
    (hname : name ∈ pair.1.mentions) : name ∈ (mentions statements).map Prod.fst := by
  induction statements with
  | nil => cases hitem
  | cons first rest ih =>
      rcases List.mem_cons.mp hitem with rfl | hrest
      · rw [mentions, List.map_append]
        refine List.mem_append_left _ (List.mem_map.mpr ⟨(name, pair.2), ?_, rfl⟩)
        refine List.mem_flatMap.mpr ⟨pair, hpair, List.mem_map.mpr ⟨name, ?_, rfl⟩⟩
        exact NameSet.mem_ofList.mpr hname
      · cases first with
        | label _ _ | constant _ _ _ _ => exact ih hrest
        | item _ _ =>
            rw [mentions, List.map_append]
            exact List.mem_append_right _ (ih hrest)

/-- All that a program mentions is noted. -/
theorem mem_keys_noteMentions (h : name ∈ (mentions statements).map Prod.fst) :
    name ∈ keys (noteMentions table statements).mentioned := by
  -- what is mentioned is noted sooner or later, and stays noted
  have hfold : ∀ (noted : List (String × Option Location)) (table : SymbolTable),
      name ∈ noted.map Prod.fst ∨ name ∈ keys table.mentioned →
      name ∈ keys (noted.foldl (fun table entry => table.mention entry.1 entry.2)
        table).mentioned := by
    intro noted
    induction noted with
    | nil =>
        rintro table (hmem | hmem)
        · cases hmem
        · exact hmem
    | cons first rest ih =>
        intro table hmem
        rw [List.foldl_cons]
        refine ih _ ?_
        rw [mem_keys_mention]
        rw [List.map_cons, List.mem_cons] at hmem
        tauto
  exact hfold _ table (.inl h)

/-! ## What has a value -/

/-- What the command line defines are constants. -/
theorem kind_of_definePredefined {defines : Defines}
    (h : ∀ symbol ∈ table.symbols, symbol.kind = .constant)
    (hdefine : definePredefined table defines = .ok table') :
    ∀ symbol ∈ table'.symbols, symbol.kind = .constant := by
  induction defines generalizing table with
  | nil =>
      obtain rfl := Except.ok.inj hdefine
      exact h
  | cons first rest ih =>
      obtain ⟨table₁, hfirst, hrest⟩ := bind_eq_ok.mp hdefine
      obtain ⟨-, rfl⟩ := define_eq_ok.mp hfirst
      refine ih (fun symbol hmem => ?_) hrest
      rcases List.mem_append.mp hmem with hmem | hmem
      · exact h symbol hmem
      · rw [List.mem_singleton.mp hmem]

/-- The first pass enters labels with their addresses, and nothing else but constants. -/
theorem isSome_value_of_resolve {limit : Int} {withEntryJump : Bool} {layout : Layout}
    (hkept : Kept table) (hconstants : ∀ symbol ∈ table.symbols, symbol.kind = .constant)
    (h : Yields (Layout.resolve limit withEntryJump statements) table layout table') :
    ∀ symbol ∈ table'.symbols, symbol.kind ≠ .constant → symbol.value.isSome = true := by
  intro symbol hmem hkind
  have hunfolded : symbol ∈ table'.unfolded.symbols :=
    List.mem_map.mpr ⟨symbol, hmem, by rw [Symbol.unfolded, if_neg hkind]⟩
  rw [(Layout.resolve_enters hkept h).symbols_eq, List.mem_append, List.mem_append] at hunfolded
  -- symbols that were there before are constants, those that are added are constants or labels
  rcases hunfolded with hbefore | hconstant | hlabel
  · obtain ⟨old, hold, rfl⟩ := List.mem_map.mp hbefore
    rw [Symbol.kind_unfolded] at hkind
    exact absurd (hconstants old hold) hkind
  · obtain ⟨statement, -, hentry⟩ := List.mem_filterMap.mp hconstant
    cases statement with
    | label _ _ | item _ _ => cases hentry
    | constant _ _ _ _ =>
        obtain rfl := Option.some.inj hentry
        exact absurd rfl hkind
  · obtain ⟨label, -, rfl⟩ := List.mem_map.mp hlabel
    rfl

/-- After the names have been checked, those that a program mentions have values. -/
theorem isSome_value?_of_checkNames {u : Unit} (hkept : Kept table)
    (hvalued : ∀ symbol ∈ table.symbols, symbol.kind ≠ .constant → symbol.value.isSome = true)
    (h : Yields (checkNames statements) table u table')
    (hname : name ∈ (mentions statements).map Prod.fst) : (table'.value? name).isSome = true := by
  simp only [checkNames, resolveAll, yields_bind, yields_modify, yields_get, yields_liftM] at h
  obtain ⟨_, noted, hnoted, _, _, ⟨rfl, rfl⟩, _, _, ⟨hmentions, rfl⟩, _, _, ⟨rfl, rfl⟩, hresolve⟩ :=
    h
  have hmem : name ∈ keys noted.mentioned := hnoted ▸ mem_keys_noteMentions hname
  obtain ⟨symbol, hfind⟩ :=
    Option.isSome_iff_exists.mp (contains_of_checkMentions hmentions hmem)
  obtain ⟨mentioned, heq⟩ := noteMentions_eq table statements
  rw [heq] at hnoted
  subst hnoted
  have hkept' : Kept { table with mentioned } := hkept.of_symbols rfl rfl rfl
  obtain ⟨hlast, -⟩ := answers_of_resolveEach hkept' hresolve
  have hentered := (hkept'.find?_eq name).symm.trans (hlast.find?_eq name)
  rw [hfind, Option.map_some] at hentered
  obtain ⟨symbol', hfind', hsame⟩ := Option.map_eq_some_iff.mp hentered.symm
  rw [value?_of_find? hfind']
  by_cases hkind : symbol'.kind = .constant
  · exact isSome_value_of_resolveEach hkept' hresolve hfind' hkind
  · -- folding constants leaves a label as it was entered
    have hkind' : symbol.kind ≠ .constant := by
      rwa [← Symbol.kind_unfolded, ← hsame, Symbol.kind_unfolded]
    rw [Symbol.unfolded, if_neg hkind, Symbol.unfolded, if_neg hkind'] at hsame
    rw [hsame]
    exact hvalued symbol (List.mem_of_find?_eq_some hfind) hkind'

end Assembly

/-! ## Expressions over names with values -/

namespace SymbolTable

variable {table table' start : SymbolTable}

/-- All names with a value in the first table have one in the second. -/
def KeepsValues (start table : SymbolTable) : Prop :=
  ∀ name, (start.value? name).isSome = true → (table.value? name).isSome = true

/-- Values that are kept stay so as the table grows. -/
theorem KeepsValues.extend (h : KeepsValues start table) (hextends : Extends table table') :
    KeepsValues start table' := by
  intro name hname
  obtain ⟨value, hvalue⟩ := Option.isSome_iff_exists.mp (h name hname)
  exact Option.isSome_iff_exists.mpr ⟨value, hextends.le name value hvalue⟩

/-- A literal is at most entered. -/
theorem extends_intern {value : Int} {literal : Literal}
    (h : Yields (intern value) table literal table') : Extends table table' := by
  obtain ⟨counted, rfl, hresult⟩ := yields_intern h
  have hcounted : Extends table
      { table with pool := table.pool.intern (table.arith.width.wrap value) } := .of_symbols rfl rfl
  by_cases hmem : table.arith.width.wrap value ∈ table.pool.values
  · rw [if_pos hmem] at hresult
    exact hresult ▸ hcounted
  · rw [if_neg hmem] at hresult
    exact hcounted.trans (.define hresult)

/-- All faults are allowed but those that lie in a name, however long the numbers are. -/
theorem allowsOthers_names : Fault.AllowsOthers False (·.concernsNames = false) where
  source _ _ hcause _ := hcause
  excess _ := rfl

/-- The names of an expression have values. -/
def Values (table : SymbolTable) (e : Expr) : Prop :=
  ∀ name ∈ e.mentions, (table.value? name).isSome = true

/-- What refuses an expression whose names have values does not lie in a name. -/
theorem discipline_keepsValues (start : SymbolTable) (width : Width) :
    Discipline False (·.concernsNames = false) width (KeepsValues start) start.Values where
  others := allowsOthers_names
  narrow := False.elim
  width_eq := False.elim
  known := False.elim
  -- names that have values are found without folding anything
  evaluate := by
    intro e hvalues here table _ htable
    refine .read (.weaken (e.confined_fold allowsOthers_names False.elim
      (fun _ _ => False.elim) False.elim ?_ table htable) fun _ _ hs => ⟨hs.1, False.elim⟩)
    intro name hmem location s hs
    apply Confined.read
    split
    · exact .ret ⟨hs, False.elim⟩
    · obtain ⟨value, hvalue⟩ := Option.isSome_iff_exists.mp (hs name (hvalues name hmem))
      exact .of_run (yields_valueOf hvalue) ⟨hs, False.elim⟩
  intern h hyields := h.extend (extends_intern hyields)

end SymbolTable

/-! ## The stages together -/

namespace Assembly

variable {config : Config} {defines : Defines} {source file : String} {items : List Item}
  {table : SymbolTable}

/-- The items of a program are those of its source, and a jump to a number. -/
theorem mem_statements_or_mentions_nil {limit : Int} {withEntryJump : Bool}
    {statements : List Statement} {layout : Layout} {table' : SymbolTable} {item : Item}
    (h : Yields (Layout.resolve limit withEntryJump statements) table layout table')
    (hmem : item ∈ layout.items) :
    .item item.body item.location ∈ statements ∨
      ∀ pair ∈ expressions item.location item.body, pair.1.mentions = [] := by
  obtain ⟨_, -, hplace, hitems, -⟩ := Layout.exists_placeItems_of_resolve h
  rw [hitems, List.mem_append] at hmem
  -- the inserted jump goes to a number; everything else comes from the source
  rcases hmem with hjump | hsource
  · right
    split at hjump
    · cases hfirst : layout.sourceItems.find? Item.isCode with
      | none =>
          rw [Layout.entryJump, hfirst] at hjump
          cases hjump
      | some first =>
          rw [Layout.entryJump_eq hfirst, List.mem_singleton] at hjump
          subst hjump
          exact List.forall_mem_singleton.mpr rfl
    · cases hjump
  · left
    have hitem : (item.body, item.location) ∈ Statement.items statements :=
      Layout.placeItems_source hplace ▸ List.mem_map_of_mem hsource
    obtain ⟨statement, hstatement, heq⟩ := List.mem_filterMap.mp hitem
    cases statement with
    | label _ _ | constant _ _ _ _ => cases heq
    | item body location =>
        cases heq
        exact hstatement

/-- The names of all expressions have values when the second pass starts. -/
theorem values_of_placed (h : placed config defines source file = .ok (items, table)) :
    ∀ item ∈ items, item.Has table.Values := by
  obtain ⟨statements, arith, predefined, layout, resolved, -, -, hpredefined, hresolve, hcheck,
    rfl⟩ := placed_eq_ok.mp h
  have hkept : Kept predefined := kept_definePredefined (backed_empty arith).kept hpredefined
  have hconstants : ∀ symbol ∈ predefined.symbols, symbol.kind = .constant :=
    kind_of_definePredefined (fun symbol hmem => by cases hmem) hpredefined
  intro item hitem pair hpair name hname
  rcases mem_statements_or_mentions_nil hresolve hitem with hsource | hnone
  · exact isSome_value?_of_checkNames (Layout.resolve_enters hkept hresolve).kept
      (isSome_value_of_resolve hkept hconstants hresolve) hcheck (mem_mentions hsource hpair hname)
  · rw [hnone pair hpair] at hname
    cases hname

/-- What comes after the names have been checked: the second pass, which evaluates expressions whose
names have values, the storage, and the image, which can always be built if there can be a
listing. -/
theorem confined_ofSource (h : placed config defines source file = .ok (items, table))
    (reports : List Progress) :
    Confined (·.concernsNames = false) (fun _ _ => True) (ofSource config defines source file)
      reports := by
  have hvalues := values_of_placed h
  obtain ⟨statements, arith, predefined, layout, resolved, hparse, harith, hpredefined, hresolve,
    hcheck, rfl⟩ := placed_eq_ok.mp h
  refine .after (yields_liftM.mpr ⟨hparse, rfl⟩) (.change ?_)
  -- the stages before the expansion are known to succeed, so only later ones can fail
  have hstages : Confined (·.concernsNames = false) (fun _ _ => True)
      (ofStatements config defines statements) (reports ++ [.parsed statements.length]) := by
    refine .after (yields_liftM.mpr ⟨harith, rfl⟩) ?_
    refine .after (yields_liftM.mpr ⟨hpredefined, rfl⟩) ?_
    refine .after (yields_stage.mpr ⟨hresolve, rfl⟩) (.change ?_)
    refine .after (yields_stage.mpr ⟨hcheck, rfl⟩) ?_
    have hexpand := Item.confined_contents (discipline_keepsValues table arith.width) hvalues
      False.elim fun _ hname => hname
    refine (confined_stage hexpand _).seq fun ⟨contents, expanded⟩ _ hexpanded _ => ?_
    rw [yields_stage] at hexpanded
    have hstore : Confined (·.concernsNames = false) (fun _ _ => True)
        (Layout.placeStorage (Layout.sizeLimit arith.width config.maxImageSize))
        (layout, expanded) :=
      Layout.confined_placeStorage allowsOthers_names False.elim False.elim False.elim
    refine .change ((confined_stage hstore _).seq fun ⟨size, stored⟩ _ hstored _ => .change ?_)
    rw [yields_stage] at hstored
    -- from here on everything is known that the last stage starts from
    let P : Prepared config defines source file :=
      ⟨statements, arith, layout, contents, size, predefined, resolved, table, expanded, stored,
        hparse, harith, hpredefined, hresolve, hcheck, hexpanded.1, hstored.1⟩
    have hbuild := P.confined_buildImage allowsOthers_names False.elim
    exact (confined_stage hbuild _).bind fun _ _ _ => trivial
  exact hstages.bind fun _ _ _ => trivial

/-- A stage that fails, fails the computation with the same fault. -/
theorem fails_stage {σ α : Type} {m : Folding σ α} {state state' : σ} {fault : Fault}
    (h : m.run state = (.error fault, state')) (reports : List Progress) :
    Confined (· = fault) (fun _ _ => False) (stage m state) reports := by
  unfold stage
  rw [h]
  rfl

/-- An assembly that does not come to the second pass ends in the fault that it met before. -/
theorem fails_ofSource {fault : Fault} (h : placed config defines source file = .error fault)
    (reports : List Progress) :
    Confined (· = fault) (fun _ _ => False) (ofSource config defines source file) reports := by
  -- what follows a fault does not matter
  have hstop : ∀ {σ α β : Type} {m : Folding σ α} {f : α → Folding σ β} {s : σ},
      Confined (· = fault) (fun _ _ => False) m s →
      Confined (· = fault) (fun _ _ => False) (m >>= f) s :=
    fun hm => hm.bind fun _ _ hfalse => hfalse.elim
  simp only [placed, bind_eq_error] at h
  unfold ofSource ofStatements
  rcases h with hread | ⟨statements, hread, h⟩
  · rw [hread]
    exact hstop rfl
  rw [hread]
  refine .after rfl (.after rfl (hstop ?_))
  rcases h with harith | ⟨arith, harith, h⟩
  · rw [harith]
    exact hstop rfl
  rw [harith]
  refine .after rfl ?_
  rcases h with hpredefined | ⟨predefined, hpredefined, h⟩
  · rw [hpredefined]
    exact hstop rfl
  rw [hpredefined]
  refine .after rfl ?_
  -- the fault is one of the first pass, or of the check after it
  split at h
  · cases h
  · next hrun =>
    obtain rfl := Except.error.inj h
    rcases hresolve : (Layout.resolve (Layout.sizeLimit arith.width config.maxImageSize)
      config.entryJump statements).run predefined with ⟨_ | layout, resolved⟩
    · rw [run_bind, hresolve] at hrun
      cases hrun
      exact hstop (fails_stage hresolve _)
    · rw [run_bind, hresolve] at hrun
      refine .after (yields_stage.mpr ⟨hresolve, rfl⟩) (.after rfl ?_)
      rcases hcheck : (checkNames statements).run resolved with ⟨_ | _, checked⟩
      · simp only [run_bind, hcheck] at hrun
        cases hrun
        exact hstop (fails_stage hcheck _)
      · simp only [run_bind, hcheck] at hrun
        cases hrun

/-- Quoting a line of the source does not change the cause. -/
theorem cause_quoteSource (source file : String) (d : Diagnostic) :
    (quoteSource source file d).cause = d.cause := by
  unfold quoteSource
  split
  · split
    · split
      · rfl
      · rfl
    · rfl
  · rfl

/-- Quoting the source does not change the reason. -/
theorem concernsNames_quoteFault (source file : String) (fault : Fault) :
    (quoteFault source file fault).concernsNames = fault.concernsNames := by
  cases fault with
  | source d => exact congrArg Cause.concernsNames (cause_quoteSource source file d)
  | excess _ | narrowCell _ | noPoolSlot _ | noDefinition _ => rfl

/-- Names are checked before the second pass.  An assembly that does not get there ends in the fault
that it met before; once the first pass and the check of the names have succeeded, nothing that
refuses the program lies in a name, neither one that is not defined nor one that is defined in a
circle. -/
theorem names_checked_first (config : Config) (defines : Defines) (source file : String) :
    (∀ fault, placed config defines source file = .error fault →
      assemble config defines source file = .error (quoteFault source file fault)) ∧
    (∀ items table, placed config defines source file = .ok (items, table) →
      ∀ fault, assemble config defines source file = .error fault →
        fault.concernsNames = false) := by
  constructor
  · intro fault h
    have hfails := fails_ofSource h []
    rcases hrun : (ofSource config defines source file).run [] with ⟨found | image, reports⟩
    · obtain rfl := hfails.allowed hrun
      exact assemble_eq_error.mpr ⟨found, reports, hrun, rfl⟩
    · exact (hfails.post hrun).elim
  · intro items table h fault hfault
    obtain ⟨found, reports, hrun, rfl⟩ := assemble_eq_error.mp hfault
    rw [concernsNames_quoteFault]
    exact (confined_ofSource h []).allowed hrun

/-- A program that uses a name which has to be defined before it. -/
def quotientSource : String := "x equ y + 1\nloop: add [v], x / (y - 2)\nv: dw loop\n"

/-- Without the name it is refused before the second pass, for the sake of the name.  With it, the
second pass refuses it, for the sake of a division. -/
theorem names_checked_first_quotient :
    (∃ fault, placed {} [] quotientSource "quotient" = .error fault ∧
      fault.concernsNames = true ∧
      assemble {} [] quotientSource "quotient" =
        .error (quoteFault quotientSource "quotient" fault)) ∧
    ∃ items table fault, placed {} [("y", 2)] quotientSource "quotient" = .ok (items, table) ∧
      assemble {} [("y", 2)] quotientSource "quotient" = .error fault ∧
      fault.concernsNames = false := by
  -- the three answers are evaluated; what they say about the fault is not
  have hfails : ((placed {} [] quotientSource "quotient").mapError Fault.concernsNames).map
      (fun _ => ()) = .error true := by decide +kernel
  have hplaced : (placed {} [("y", 2)] quotientSource "quotient").isOk = true := by decide +kernel
  have hrefused : (assemble {} [("y", 2)] quotientSource "quotient").isOk = false := by
    decide +kernel
  constructor
  · cases h : placed {} [] quotientSource "quotient" with
    | error fault =>
        rw [h] at hfails
        exact ⟨fault, rfl, Except.error.inj hfails, (names_checked_first {} [] _ _).1 fault h⟩
    | ok _ =>
        rw [h] at hfails
        cases hfails
  · rcases h : placed {} [("y", 2)] quotientSource "quotient" with _ | ⟨items, table⟩
    · rw [h] at hplaced
      cases hplaced
    · cases hresult : assemble {} [("y", 2)] quotientSource "quotient" with
      | error fault =>
          exact ⟨items, table, fault, rfl, rfl,
            (names_checked_first {} [("y", 2)] _ _).2 items table h fault hresult⟩
      | ok _ =>
          rw [hresult] at hrefused
          cases hrefused

end Assembly

end Subleq
