import Subleq.Proofs.Refinement

/-!
# Literals are constants

All immediate operands with the same value share one cell of the pool, so an operation that writes
to such a cell changes what other operations mean.  In a program whose operations keep to cells of
data, the comparison is the only operation that does so: it subtracts its operands from each other
in place, and an operand may be immediate there.  A literal that has been compared is another number
for every operation that comes after (`Image.literal_spoiled`).

`Operation.Writes` says what the instructions of an operation write to.  From it follows what one
instruction leaves unchanged (`Stages.Holds.step`), and from that what a run does: the cell of a
literal holds it up to the first instruction that subtracts from it, which is the third one of a
comparison that has it on the left, or the fifth one of a comparison that has it on the right
(`Image.literals_of_assemble`).
-/

namespace Subleq

/-- The instruction at an address: the operation that it belongs to, with its item, and its number
there. -/
def Layout.instructionOf? (layout : Layout) (pc : Int) : Option (Item × Operation × Nat) :=
  layout.items.findSome? fun item =>
    match item.body with
    | .operation op =>
        if (item.address : Int) ≤ pc ∧ pc < item.endAddress ∧ (pc - item.address) % tripleSize = 0
        then some (item, op, ((pc - item.address) / tripleSize).toNat) else none
    | .data _ _ | .reserve _ _ => none

/-- The instruction is one of an operation of the layout, and its number tells where. -/
theorem Layout.instructionOf?_eq_some {layout : Layout} {pc : Int} {item : Item} {op : Operation}
    {index : Nat} (h : layout.instructionOf? pc = some (item, op, index)) :
    item ∈ layout.items ∧ item.body = .operation op ∧ pc = item.address + 3 * index ∧
      pc < item.endAddress := by
  obtain ⟨found, hmem, hfound⟩ := List.exists_of_findSome?_eq_some h
  split at hfound
  · next op' hbody =>
    split at hfound
    · next hpc =>
      cases hfound
      obtain ⟨hlow, hhigh, hmod⟩ := hpc
      have hsize : (tripleSize : Int) = 3 := rfl
      rw [hsize] at hmod ⊢
      exact ⟨hmem, hbody, by omega, hhigh⟩
    · cases hfound
  · cases hfound
  · cases hfound

namespace Operation

section Meaning

variable (width : Width) (env : Environment) (here : Int)

/-- Whether an operation is not the bare instruction, uses no temp field, and reads and writes data
cells only. -/
def keepsToData (layout : Layout) : Operation → Bool
  | .subleq _ _ _ => false
  | .sub dst src | .mov dst src | .addR dst src | .add dst src =>
      dst.isConfined width env here layout && src.isConfined width env here layout
  | .addC dst addend => dst.isConfined width env here layout && !addend.isTemp
  | .jmp target => !target.isTemp
  | .hlt => true
  | .je a b target =>
      a.isConfined width env here layout && b.isConfined width env here layout && !target.isTemp

/-- The literal that an instruction of an operation subtracts from.  The third instruction of a
comparison subtracts from its first operand, the fifth one from its second, and no other instruction
from any. -/
def spoiled? : Operation → (index : Nat) → Option Int
  | .je a _ _, 2 => a.addend? width env here
  | .je _ b _, 4 => b.addend? width env here
  | _, _ => none

end Meaning

/-- What an instruction may write to, beside what it subtracts: a temp field, a cell of data, or the
literal that it is known to spoil.  Stopping subtracts zero from itself. -/
inductive Writes (layout : Layout) (spoiled : Option Int) : (a b : Slot) → Prop
  | temp (a : Slot) (field : Temp) : Writes layout spoiled a (.temp field)
  | data (a : Slot) {address : Int} (h : layout.isData address = true) :
      Writes layout spoiled a (.address address)
  | literal (a : Slot) {value : Int} (h : spoiled = some value) :
      Writes layout spoiled a (.literal value)
  | stop : Writes layout spoiled (.literal 0) (.literal 0)

end Operation

/-- Whether all operations of the source keep to data. -/
def Layout.keepsToData (width : Width) (env : Environment) (layout : Layout) : Bool :=
  layout.sourceItems.all fun item =>
    match item.body with
    | .operation op => op.keepsToData width env item.endAddress layout
    | .data _ _ | .reserve _ _ => true

/-! ## What the instructions of an operation write -/

section Expansion

variable {width : Width} {env : Environment} {here : Int} {layout : Layout}
  {spoiled : Option Int}

/-- A destination is a cell of data. -/
theorem Operand.writes_of_write? {operand : Operand} {slot : Slot}
    (hconfined : operand.isConfined width env here layout = true)
    (h : operand.write? width env here = some slot) (a : Slot) :
    Operation.Writes layout spoiled a slot := by
  rw [write?] at h
  rw [isConfined] at hconfined
  split at h
  · next field haccess =>
    rw [haccess] at hconfined
    cases hconfined
  · cases h
  · next e haccess =>
    obtain ⟨address, heval, rfl⟩ := Option.map_eq_some_iff.mp h
    simp only [haccess, heval, Option.any_some] at hconfined
    exact .data a hconfined

/-- An operand that is read, and written to all the same, is a cell of data or a literal that is
spoiled. -/
theorem Operand.writes_of_read? {operand : Operand} {slot : Slot}
    (hconfined : operand.isConfined width env here layout = true)
    (hspoiled : spoiled = operand.addend? width env here)
    (h : operand.read? width env here = some slot) (a : Slot) :
    Operation.Writes layout spoiled a slot := by
  rw [read?] at h
  rw [addend?] at hspoiled
  rw [isConfined] at hconfined
  -- a temp field is not confined, so it is a value or a cell of data
  split at h
  · next field haccess =>
    rw [haccess] at hconfined
    cases hconfined
  · next e haccess =>
    obtain ⟨value, heval, rfl⟩ := Option.map_eq_some_iff.mp h
    rw [haccess] at hspoiled
    exact .literal a (hspoiled.trans heval)
  · next e haccess =>
    obtain ⟨address, heval, rfl⟩ := Option.map_eq_some_iff.mp h
    simp only [haccess, heval, Option.any_some] at hconfined
    exact .data a hconfined

namespace Operation

/-- What an operation that keeps to data writes to is data. -/
theorem isConfined_of_destination? {op : Operation} {dst : Operand}
    (hdata : op.keepsToData width env here layout = true) (h : op.destination? = some dst) :
    dst.isConfined width env here layout = true := by
  cases op with
  | sub | mov | addR | add | addC =>
      obtain rfl := Option.some.inj h
      rw [keepsToData, Bool.and_eq_true] at hdata
      exact hdata.1
  | subleq | hlt | jmp | je => cases h

/-- The instructions of an operation that keeps to data write to temp fields, to data, and to the
literal that they spoil. -/
theorem writes_of_expansion? {op : Operation} {base : Int} {slots : List (Slot × Slot × Slot)}
    {index : Nat} {a b c : Slot} (hhere : here = base + op.triples * tripleSize)
    (hdata : op.keepsToData width env here layout = true)
    (hslots : op.expansion? width env base = some slots) (h : slots[index]? = some (a, b, c)) :
    Writes layout (op.spoiled? width env here index) a b := by
  subst hhere
  -- what is written to is one of the places that the expansion names
  obtain ⟨-, hsubtracts, -⟩ := origins_of_expansion? hslots h
  cases hsubtracts with
  | temp _ field => exact .temp a field
  | destination _ hdst hwrite =>
      exact Operand.writes_of_write? (isConfined_of_destination? hdata hdst) hwrite a
  -- the bare instruction writes where it likes, so it does not keep to data
  | bare _ hop _ =>
      subst hop
      cases hdata
  | first _ hop hindex hread =>
      subst hop hindex
      rw [keepsToData, Bool.and_eq_true, Bool.and_eq_true] at hdata
      exact Operand.writes_of_read? hdata.1.1 rfl hread a
  | second _ hop hindex hread =>
      subst hop hindex
      rw [keepsToData, Bool.and_eq_true, Bool.and_eq_true] at hdata
      exact Operand.writes_of_read? hdata.1.2 rfl hread a
  | halt _ => exact .stop

end Operation

end Expansion

/-! ## Runs -/

namespace Assembly.Stages

open Machine (State)

variable {config : Config} {defines : Defines} {source file : String} {image : Image}
  {S : Stages config defines source file image}

/-- All operations keep to data, the jump to the first one included. -/
theorem keepsToData_of_mem (h : S.layout.keepsToData S.width S.table.value? = true) {item : Item}
    {op : Operation} (hmem : item ∈ S.layout.items) (hbody : item.body = .operation op) :
    op.keepsToData S.width S.table.value? item.endAddress S.layout = true := by
  rcases mem_sourceItems_or_jump hmem with hmem | ⟨first, rfl⟩
  · simpa only [hbody] using List.all_eq_true.mp h item hmem
  · cases hbody
    rfl

/-- The temp fields are behind the literals. -/
theorem le_of_cell_temp {field : Temp} {address : Int} (h : S.cell (.temp field) = some address) :
    S.layout.itemsEnd + S.values.length ≤ address := by
  have htemps := S.stored_sound.2.2.2
  rw [S.tempBase_eq] at htemps
  have hvalue : S.table.value? field.name = some address := h
  cases field with
  | t =>
      have heq := Option.some.inj (hvalue.symm.trans (htemps _ (.head _)))
      omega
  | e =>
      have heq := Option.some.inj (hvalue.symm.trans (htemps _ (.tail _ (.head _))))
      omega
  | r =>
      have heq := Option.some.inj (hvalue.symm.trans (htemps _ (.tail _ (.tail _ (.head _)))))
      omega

/-- Different literals have different cells. -/
theorem literal_unique {value value' address : Int}
    (h : (value, address) ∈ Pool.located S.layout.itemsEnd S.values)
    (h' : S.cell (.literal value') = some address) : value' = value := by
  have hcell := (S.getElem?_of_mem_pool h).2.2
  have hcell' := (S.getElem?_of_mem_pool (OrderedMap.mem_of_get? h')).2.2
  exact Option.some.inj (hcell'.symm.trans hcell)

variable (S) in
/-- The operations are as they were loaded, and a cell holds a literal. -/
structure Holds (value address : Int) (s : State) : Prop where
  size_eq : s.memory.size = image.loaded.memory.size
  code_eq : ∀ item ∈ S.layout.items, item.isCode = true → ∀ cell : Int, item.address ≤ cell →
    cell < item.endAddress → s.cell cell = image.loaded.cell cell
  literal_eq : s.cell address = value

variable {s : State} {value address : Int}

/-- At the start every literal is in its cell. -/
theorem holds_loaded (h : (value, address) ∈ Pool.located S.layout.itemsEnd S.values) :
    S.Holds value address image.loaded := by
  obtain ⟨hlow, -, hcell⟩ := S.getElem?_of_mem_pool h
  obtain ⟨cell, rfl⟩ := Int.eq_ofNat_of_zero_le (le_trans (Int.natCast_nonneg _) hlow)
  exact ⟨rfl, fun _ _ _ _ _ _ => rfl, Image.cell_loaded hcell⟩

/-- A literal that is in its cell is read there. -/
theorem Holds.read_eq {machine : Machine} (h : S.Holds value address machine.state)
    (hbounds : image.loaded.InMemory address) : machine.read address = .ok value := by
  have hmemory : machine.state.InMemory address := by
    rw [State.InMemory, h.size_eq]
    exact hbounds
  rw [Machine.read, if_pos hmemory, h.literal_eq]

/-- The cells of operations come before the literals. -/
theorem lt_itemsEnd_of_code {item : Item} {cell : Int} (hmem : item ∈ S.layout.items)
    (hcell : cell < item.endAddress) : cell < S.layout.itemsEnd := by
  have hend := (S.covers.contiguous.bounds hmem).2
  omega

/-- What an instruction writes to is not a cell of an operation, and it is not the cell of a literal
that it does not spoil, unless zero is subtracted from itself. -/
theorem spared_of_writes {slot slot' : Slot} {a b : Int} {spoiled : Option Int}
    (hpool : (value, address) ∈ Pool.located S.layout.itemsEnd S.values)
    (hspoiled : spoiled ≠ some value) (h : Operation.Writes S.layout spoiled slot slot')
    (ha : S.cell slot = some a) (hb : S.cell slot' = some b) :
    (∀ item ∈ S.layout.items, item.isCode = true → ∀ cell : Int, item.address ≤ cell →
      cell < item.endAddress → cell ≠ b) ∧ (address = b → a = b ∧ value = 0) := by
  obtain ⟨hlow, hhigh, -⟩ := S.getElem?_of_mem_pool hpool
  -- temp fields and literals are behind the code, and data is between it
  cases h with
  | temp _ field =>
      have hle := le_of_cell_temp hb
      refine ⟨fun item hmem _ cell _ hcell => ?_, fun heq => ?_⟩
      · have hlt := lt_itemsEnd_of_code hmem hcell
        omega
      · omega
  | data _ hdata =>
      obtain rfl := Option.some.inj hb
      refine ⟨fun item hmem hcode cell hfirst hcell heq => ?_, fun heq => ?_⟩
      · exact not_writable_of_code hmem hcode hfirst hcell (heq ▸ .inl hdata)
      · have hlt := (isData_bounds hdata).2
        omega
  | literal _ hvalue =>
      have hle := (S.getElem?_of_mem_pool (OrderedMap.mem_of_get? hb)).1
      refine ⟨fun item hmem _ cell _ hcell => ?_, fun heq => ?_⟩
      · have hlt := lt_itemsEnd_of_code hmem hcell
        omega
      -- a cell of the pool holds one literal
      · subst heq
        obtain rfl := literal_unique hpool hb
        exact absurd hvalue hspoiled
  | stop =>
      have hle := (S.getElem?_of_mem_pool (OrderedMap.mem_of_get? hb)).1
      refine ⟨fun item hmem _ cell _ hcell => ?_, fun heq => ?_⟩
      · have hlt := lt_itemsEnd_of_code hmem hcell
        omega
      · subst heq
        exact ⟨Option.some.inj (ha.symm.trans hb), (literal_unique hpool hb).symm⟩

/-- An instruction of an operation that keeps to data, and that does not spoil a literal, leaves the
operations and the literal as they are. -/
theorem Holds.step {item : Item} {op : Operation} {index : Nat} (h : S.Holds value address s)
    (hdata : S.layout.keepsToData S.width S.table.value? = true)
    (hpool : (value, address) ∈ Pool.located S.layout.itemsEnd S.values)
    (hat : S.layout.instructionOf? s.pc = some (item, op, index))
    (hspoiled : op.spoiled? S.width S.table.value? item.endAddress index ≠ some value)
    (hobstacle : s.obstacle? = none) : S.Holds value address (s.execute S.width) := by
  obtain ⟨hmem, hbody, hpc, hlt⟩ := Layout.instructionOf?_eq_some hat
  have hcode : item.isCode = true := by rw [Item.isCode, hbody]; rfl
  have hend := S.endAddress_eq hmem hbody
  have hsize : (item.endAddress : Int) = item.address + op.triples * 3 := hend
  obtain ⟨slots, hslots⟩ := S.exists_expansion hmem hbody
  have hindex : index < slots.length := by
    rw [Operation.length_expansion? hslots]
    omega
  obtain ⟨⟨slot, slot', slot''⟩, htriple⟩ : ∃ triple, slots[index]? = some triple :=
    ⟨_, List.getElem?_eq_getElem hindex⟩
  have hwrites := Operation.writes_of_expansion? hend (keepsToData_of_mem hdata hmem hbody) hslots
    htriple
  obtain ⟨hfirst, hsecond, hthird⟩ := Slot.getElem?_flatten htriple
  obtain ⟨a, ha⟩ := S.isSome_cell hmem hbody hslots (List.mem_of_getElem? hfirst)
  obtain ⟨b, hb⟩ := S.isSome_cell hmem hbody hslots (List.mem_of_getElem? hsecond)
  obtain ⟨c, hc⟩ := S.isSome_cell hmem hbody hslots (List.mem_of_getElem? hthird)
  have hinstruction := instruction_of_expansion hmem hbody index hslots htriple hpc ha hb hc
  obtain ⟨hspared, hliteral⟩ := spared_of_writes hpool hspoiled hwrites ha hb
  -- the instruction is still the one of the operation, so it is known what it writes
  have hexecutable := State.executable_of_obstacle? hobstacle
  rw [h.code_eq item hmem hcode _ (by omega) hlt, hinstruction.a_eq,
    h.code_eq item hmem hcode (s.pc + 1) (by omega) (by omega), hinstruction.b_eq] at hexecutable
  refine ⟨?_, fun item' hmem' hcode' cell hlow hhigh => ?_, ?_⟩
  · rw [State.size_execute, h.size_eq]
  · rw [hexecutable.cell_execute, if_neg (hspared item' hmem' hcode' cell hlow hhigh),
      h.code_eq item' hmem' hcode' cell hlow hhigh]
  · rw [hexecutable.cell_execute]
    by_cases heq : address = b
    · obtain ⟨rfl, hzero⟩ := hliteral heq
      rw [if_pos heq, sub_self, Width.wrap_zero, hzero]
    · rw [if_neg heq, h.literal_eq]

/-- As long as what is executed are instructions of operations that do not spoil a literal, the cell
of the literal holds it. -/
theorem holds_run {machine : Machine} (hhalt : machine.halt = none)
    (hpoints : machine.points = Breakpoints.none) (hwidth : machine.width = S.width)
    (hloaded : machine.state = image.loaded)
    (hdata : S.layout.keepsToData S.width S.table.value? = true)
    (hpool : (value, address) ∈ Pool.located S.layout.itemsEnd S.values) {n : Nat}
    (hrun : ∀ k < n, (machine.run k).1.state.obstacle? = none →
      ∃ item op index,
        S.layout.instructionOf? (machine.run k).1.state.pc = some (item, op, index) ∧
          op.spoiled? S.width S.table.value? item.endAddress index ≠ some value) :
    S.Holds value address (machine.run n).1.state := by
  induction n with
  | zero =>
      rw [Machine.state_run hhalt hpoints, hloaded]
      exact holds_loaded hpool
  | succ n ih =>
      have hholds := ih fun k hk => hrun k (Nat.lt_succ_of_lt hk)
      rw [Machine.state_run_succ hhalt hpoints, hwidth]
      by_cases hobstacle : (machine.run n).1.state.obstacle? = none
      · obtain ⟨item, op, index, hat, hspoiled⟩ := hrun n (Nat.lt_succ_self n) hobstacle
        rw [if_pos hobstacle]
        exact hholds.step hdata hpool hat hspoiled hobstacle
      · rw [if_neg hobstacle]
        exact hholds

end Assembly.Stages

namespace Image

/-- Let all operations of a program be more than the bare instruction, use no temp field, and read
and write data cells only.  The machine that loads its image has every literal in its cell of the
pool, as long as what it executes are instructions of operations, and none of them is the third one
of a comparison with the literal on the left, or the fifth one of a comparison with it on the
right. -/
theorem literals_of_assemble {config : Config} {defines : Defines} {source file : String}
    {image : Image} {width : Width} {layout : Layout}
    (h : assemble config defines source file = .ok image)
    (hwidth : Width.ofInt? config.cellBits = some width)
    (hlayout : Assembly.firstPass config defines source file = .ok layout)
    (hdata : layout.keepsToData width image.value? = true) :
    ∃ machine, Machine.build (.ofImage image) none none none = .ok machine ∧
      ∀ value address n, (value, address) ∈ image.pool →
        (∀ k < n, (machine.run k).1.state.obstacle? = none →
          ∃ item op index,
            layout.instructionOf? (machine.run k).1.state.pc = some (item, op, index) ∧
              op.spoiled? width image.value? item.endAddress index ≠ some value) →
        (machine.run n).1.read address = .ok value := by
  obtain ⟨S⟩ := Assembly.nonempty_stages h
  obtain rfl := Option.some.inj (hwidth.symm.trans S.ofInt?_cellBits)
  obtain rfl := Except.ok.inj (hlayout.symm.trans S.firstPass_eq)
  rw [S.value?_image] at hdata ⊢
  have hbits : Width.ofInt? image.cellBits = some S.width := S.built.cellBits_eq ▸ hwidth
  refine ⟨_, Machine.build_ofImage hbits S.fits_cells, fun value address n hmem hrun => ?_⟩
  have hbounds : image.loaded.InMemory address := S.pool_bounds _ hmem
  rw [S.built.pool_eq] at hmem
  have hholds := Assembly.Stages.holds_run rfl rfl rfl rfl hdata hmem hrun
  exact hholds.read_eq hbounds

/-- Counts down and up again, until a sum is seven. -/
def countSource : String :=
  "loop: sub [x], 1\n add [x], [y]\n je [x], 7, done\n jmp loop\ndone: hlt\nx: dq 3\ny: dq 2\n"

/-- The literal that is subtracted is still there after forty instructions, among them those of
four comparisons with another one, and this one is still there after seven, of which three belong
to the first comparison. -/
theorem literals_count : ∃ image layout machine,
    assemble {} [] countSource "count" = .ok image ∧
      Assembly.firstPass {} [] countSource "count" = .ok layout ∧
      layout.keepsToData Width.default image.value? = true ∧
      Machine.build (.ofImage image) none none none = .ok machine ∧
      (1, 35) ∈ image.pool ∧ (machine.run 40).1.read 35 = .ok 1 ∧
      (7, 36) ∈ image.pool ∧ (machine.run 7).1.read 36 = .ok 7 := by
  -- the run is evaluated once: where it is after each step, and which literal would be lost there
  have hrun : (do
      let image ← (assemble {} [] countSource "count").toOption
      let layout ← (Assembly.firstPass {} [] countSource "count").toOption
      let machine ← (Machine.build (.ofImage image) none none none).toOption
      pure (decide (layout.keepsToData Width.default image.value? = true ∧
        OrderedMap.get? image.pool 1 = some 35 ∧ OrderedMap.get? image.pool 7 = some 36 ∧
        ∀ spared ∈ [((1 : Int), (40 : Nat)), (7, 7)], ∀ k : Nat, k < spared.2 →
          ((layout.instructionOf? (machine.run k).1.state.pc).any
            fun (found : Item × Operation × Nat) => decide (found.2.1.spoiled? Width.default
              image.value? found.1.endAddress found.2.2 ≠ some spared.1)) = true))) =
        some true := by
    decide +kernel
  simp only [Option.bind_eq_bind, Option.bind_eq_some_iff, Option.pure_def, Option.some_inj,
    decide_eq_true_eq] at hrun
  obtain ⟨image, himage, layout, hlayout, machine, hmachine, hdata, hone, hseven, hrun⟩ := hrun
  have h := Folding.eq_ok_of_toOption himage
  have hfirst := Folding.eq_ok_of_toOption hlayout
  obtain ⟨machine', hbuild, hliterals⟩ := literals_of_assemble h rfl hfirst hdata
  obtain rfl := Except.ok.inj ((Folding.eq_ok_of_toOption hmachine).symm.trans hbuild)
  have hspares : ∀ spared ∈ [((1 : Int), (40 : Nat)), (7, 7)], ∀ k < spared.2, ∃ item op index,
      layout.instructionOf? (machine.run k).1.state.pc = some (item, op, index) ∧
        op.spoiled? Width.default image.value? item.endAddress index ≠ some spared.1 := by
    intro spared hspared k hk
    have hfound := hrun spared hspared k hk
    cases hat : layout.instructionOf? (machine.run k).1.state.pc with
    | none =>
        rw [hat] at hfound
        cases hfound
    | some found =>
        rw [hat, Option.any_some] at hfound
        exact ⟨found.1, found.2.1, found.2.2, rfl, of_decide_eq_true hfound⟩
  have hone := OrderedMap.mem_of_get? hone
  have hseven := OrderedMap.mem_of_get? hseven
  exact ⟨image, layout, machine, h, hfirst, hdata, hbuild,
    hone, hliterals 1 35 40 hone fun k hk _ => hspares (1, 40) (.head _) k hk,
    hseven, hliterals 7 36 7 hseven fun k hk _ => hspares (7, 7) (.tail _ (.head _)) k hk⟩

/-- A comparison of a literal with a cell, and a subtraction of the same literal. -/
def comparisonSource : String := "je 5, [x], d\nd: sub [y], 5\nhlt\nx: dq 3\ny: dq 0\n"

/-- The comparison leaves a difference in the cell of the literal, and so two is subtracted where the
source says five. -/
theorem literal_spoiled : ∃ image layout machine,
    assemble {} [] comparisonSource "<input>" = .ok image ∧
      Assembly.firstPass {} [] comparisonSource "<input>" = .ok layout ∧
      layout.keepsToData Width.default image.value? = true ∧
      Machine.build (.ofImage image) none none none = .ok machine ∧
      (∀ k < 5, (layout.instructionOf? (machine.run k).1.state.pc).isSome = true) ∧
      (5, 23) ∈ image.pool ∧ (machine.run 5).1.read 23 = .ok 2 ∧
      image.value? "y" = some 22 ∧ (machine.run 5).1.read 22 = .ok (-2) := by
  -- the comparison and what is read afterwards are evaluated in one go
  have hrun : (do
      let image ← (assemble {} [] comparisonSource "<input>").toOption
      let layout ← (Assembly.firstPass {} [] comparisonSource "<input>").toOption
      let machine ← (Machine.build (.ofImage image) none none none).toOption
      let literal ← ((machine.run 5).1.read 23).toOption
      let difference ← ((machine.run 5).1.read 22).toOption
      pure (decide (layout.keepsToData Width.default image.value? = true ∧
        (∀ k : Nat, k < 5 → (layout.instructionOf? (machine.run k).1.state.pc).isSome = true) ∧
        OrderedMap.get? image.pool 5 = some 23 ∧ literal = 2 ∧ image.value? "y" = some 22 ∧
        difference = -2))) = some true := by
    decide +kernel
  simp only [Option.bind_eq_bind, Option.bind_eq_some_iff, Option.pure_def, Option.some_inj,
    decide_eq_true_eq] at hrun
  obtain ⟨image, himage, layout, hlayout, machine, hmachine, literal, hliteral, difference,
    hdifference, hdata, hoperations, hpool, rfl, hy, rfl⟩ := hrun
  exact ⟨image, layout, machine, Folding.eq_ok_of_toOption himage,
    Folding.eq_ok_of_toOption hlayout, hdata, Folding.eq_ok_of_toOption hmachine, hoperations,
    OrderedMap.mem_of_get? hpool, Folding.eq_ok_of_toOption hliteral, hy,
    Folding.eq_ok_of_toOption hdifference⟩

end Image

end Subleq
