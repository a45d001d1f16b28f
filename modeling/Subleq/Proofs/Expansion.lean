import Subleq.Proofs.Pool

/-!
# The second pass

`Operation.expansion?` is the table of expansions: what triples an operation stands for at an
address, as a function of the environment.  An operand is evaluated plainly there, with `$` standing
for the end of the whole expansion.

The second pass evaluates operands in a table in which the pool and the temp fields have no places
yet, and in which constants may be folded on the way.  `SymbolTable.Computes` says that this makes
no difference: the result is the plain one in every environment that extends the table which the
computation leaves, and so it is the plain one in the environment of the finished image.
`Item.contents_sound` puts this together for the whole pass.
-/

namespace Subleq

open Folding

/-! ## The table of expansions -/

/-- The value of a slot that is a literal. -/
def Slot.literal? : Slot → Option Int
  | .literal value => some value
  | _ => none

/-- The cell that a slot stands for, once the pool and the temp fields have places. -/
def Slot.cell? (env : Environment) (pool : Int → Option Int) : Slot → Option Int
  | .literal value => pool value
  | .address value => some value
  | .temp field => env field.name

/-- The cells of a triple of slots, one after the other. -/
def Slot.flatten (slots : List (Slot × Slot × Slot)) : List Slot :=
  slots.flatMap fun slot => [slot.1, slot.2.1, slot.2.2]

/-- The number in a slot, if it has one, fits into a cell. -/
def Slot.Fits (width : Width) : Slot → Prop
  | .literal value | .address value => width.Fits value
  | .temp _ => True

namespace Operand

variable (width : Width) (env : Environment) (here : Int)

/-- The value of an operand that is read. -/
def read? (operand : Operand) : Option Slot :=
  match operand.access with
  | .temp field => some (.temp field)
  | .immediate value => (value.eval width env (some here)).map Slot.literal
  | .memory address => (address.eval width env (some here)).map Slot.address

/-- The cell of an operand that is written. -/
def write? (operand : Operand) : Option Slot :=
  match operand.access with
  | .temp field => some (.temp field)
  | .immediate _ => none
  | .memory address => (address.eval width env (some here)).map Slot.address

/-- The place that an operand says to go on at. -/
def target? (operand : Operand) : Option Slot :=
  match operand.access with
  | .temp field => some (.temp field)
  | .immediate place | .memory place => (place.eval width env (some here)).map Slot.address

/-- The value of an operand that is added at compile time. -/
def addend? (operand : Operand) : Option Int :=
  match operand.access with
  | .immediate value => value.eval width env (some here)
  | .memory _ | .temp _ => none

variable {width env here}

/-- Only immediate operands are literals. -/
theorem isLiteral_of_read? {operand : Operand} {slot : Slot}
    (h : operand.read? width env here = some slot) :
    slot.literal?.isSome = operand.access.isImmediate := by
  rw [read?] at h
  cases haccess : operand.access with
  | temp field =>
      rw [haccess] at h
      obtain rfl := Option.some.inj h
      rfl
  | immediate _ | memory _ =>
      rw [haccess] at h
      obtain ⟨_, -, rfl⟩ := Option.map_eq_some_iff.mp h
      rfl

end Operand

namespace Operation

/-- The triples of an addition whose source is a cell. -/
def additionTable (base : Int) (dst src : Slot) : List (Slot × Slot × Slot) :=
  [(src, .temp .t, .address (base + 3)),
    (.temp .t, dst, .address (base + 6)),
    (.temp .t, .temp .t, .address (base + 9))]

/-- The triples that an operation at `base` stands for. -/
def expansion? (width : Width) (env : Environment) (base : Int) (op : Operation) :
    Option (List (Slot × Slot × Slot)) :=
  let here := base + op.triples * tripleSize
  match op with
  | .subleq a b target => do
      let a ← a.read? width env here
      let b ← b.read? width env here
      let target ← target.target? width env here
      pure [(a, b, target)]
  | .sub dst src => do
      let dst ← dst.write? width env here
      let src ← src.read? width env here
      pure [(src, dst, .address (base + 3))]
  | .hlt => pure [(.literal 0, .literal 0, .address (-1))]
  | .jmp target => do
      let target ← target.target? width env here
      pure [(.temp .t, .temp .t, target)]
  | .mov dst src => do
      let dst ← dst.write? width env here
      let src ← src.read? width env here
      pure [(dst, dst, .address (base + 3)),
        (src, .temp .t, .address (base + 6)),
        (.temp .t, dst, .address (base + 9)),
        (.temp .t, .temp .t, .address (base + 12))]
  | .addC dst addend => do
      let dst ← dst.write? width env here
      let addend ← addend.addend? width env here
      pure [(.literal (width.wrap (-addend)), dst, .address (base + 3))]
  | .addR dst src => do
      let dst ← dst.write? width env here
      let src ← src.read? width env here
      pure (additionTable base dst src)
  | .add dst src => do
      let dst ← dst.write? width env here
      let src ← src.read? width env here
      match src with
      | .literal addend => pure [(.literal (width.wrap (-addend)), dst, .address (base + 3))]
      | src => pure (additionTable base dst src)
  | .je a b target => do
      let a ← a.read? width env here
      let b ← b.read? width env here
      let target ← target.target? width env here
      pure [(a, .temp .e, .address (base + 3)),
        (.temp .e, .temp .t, .address (base + 6)),
        (b, a, .address (base + 12)),
        (.temp .e, .temp .e, .address (base + 15)),
        (.temp .t, b, target)]

/-- An addition takes as many triples as its source asks for. -/
theorem triples_add (dst src : Operand) :
    (add dst src).triples = if src.access.isImmediate then 1 else 3 := rfl

/-- An expansion has as many triples as the first pass counts for it. -/
theorem length_expansion? {width : Width} {env : Environment} {base : Int} {op : Operation}
    {slots : List (Slot × Slot × Slot)} (h : op.expansion? width env base = some slots) :
    slots.length = op.triples := by
  -- all operations but one have a table of fixed length
  cases op with
  | hlt =>
      obtain rfl := Option.some.inj h
      rfl
  | jmp target =>
      simp only [expansion?, Option.bind_eq_bind, Option.bind_eq_some_iff] at h
      obtain ⟨target, -, h⟩ := h
      obtain rfl := Option.some.inj h
      rfl
  | sub _ _ | mov _ _ | addC _ _ | addR _ _ =>
      simp only [expansion?, Option.bind_eq_bind, Option.bind_eq_some_iff] at h
      obtain ⟨dst, -, src, -, h⟩ := h
      obtain rfl := Option.some.inj h
      rfl
  | subleq _ _ _ | je _ _ _ =>
      simp only [expansion?, Option.bind_eq_bind, Option.bind_eq_some_iff] at h
      obtain ⟨a, -, b, -, target, -, h⟩ := h
      obtain rfl := Option.some.inj h
      rfl
  -- the length of an addition depends on how its source is read
  | add dst src =>
      simp only [expansion?, Option.bind_eq_bind, Option.bind_eq_some_iff] at h
      obtain ⟨dst, -, slot, hslot, h⟩ := h
      rw [triples_add, ← Operand.isLiteral_of_read? hslot]
      cases slot with
      | literal _ | address _ | temp _ =>
          obtain rfl := Option.some.inj h
          rfl

/-! ## Where the slots of an expansion come from -/

/-- The operand that an operation writes its result to. -/
def destination? : Operation → Option Operand
  | .sub dst _ | .mov dst _ | .addC dst _ | .addR dst _ | .add dst _ => some dst
  | .subleq _ _ _ | .hlt | .jmp _ | .je _ _ _ => none

section Origins

variable (width : Width) (env : Environment) (base : Int) (op : Operation)

/-- Where a slot comes from: it is a temp field, the value of an operand, the place that an operand
names, a constant, the address after a triple of the expansion, or the one that halts. -/
inductive Origin : Slot → Prop
  | temp (field : Temp) : Origin (.temp field)
  | value {operand : Operand} {e : Expr} {value : Int} (hmem : operand ∈ op.operands)
      (haccess : operand.access = .immediate e)
      (heval : e.eval width env (some (base + op.triples * tripleSize)) = some value) :
      Origin (.literal value)
  | place {operand : Operand} {e : Expr} {value : Int} (hmem : operand ∈ op.operands)
      (haccess : operand.access.expr? = some e)
      (heval : e.eval width env (some (base + op.triples * tripleSize)) = some value) :
      Origin (.address value)
  | constant (value : Int) : Origin (.literal (width.wrap value))
  | next {index : Nat} (hindex : index < op.triples) :
      Origin (.address (base + 3 * (index + 1 : Nat)))
  | halt : Origin (.address (-1))

/-- What the instruction number `index` of an expansion subtracts, and what it subtracts it from: a
temp field, the destination of the operation, the second operand of the bare instruction, or an
operand of a comparison, of which the first one is written to in the third instruction and the
second one in the fifth.  Halting subtracts zero from itself. -/
inductive Subtracts (index : Nat) : (a b : Slot) → Prop
  | temp (a : Slot) (field : Temp) : Subtracts index a (.temp field)
  | destination (a : Slot) {dst : Operand} {b : Slot} (hdst : op.destination? = some dst)
      (hwrite : dst.write? width env (base + op.triples * tripleSize) = some b) :
      Subtracts index a b
  | bare (a : Slot) {x y target : Operand} {b : Slot} (hop : op = .subleq x y target)
      (hread : y.read? width env (base + op.triples * tripleSize) = some b) : Subtracts index a b
  | first (a : Slot) {x y target : Operand} {b : Slot} (hop : op = .je x y target)
      (hindex : index = 2)
      (hread : x.read? width env (base + op.triples * tripleSize) = some b) : Subtracts index a b
  | second (a : Slot) {x y target : Operand} {b : Slot} (hop : op = .je x y target)
      (hindex : index = 4)
      (hread : y.read? width env (base + op.triples * tripleSize) = some b) : Subtracts index a b
  | halt (hop : op = .hlt) : Subtracts index (.literal 0) (.literal 0)

variable {width env base op} {operand : Operand} {slot : Slot}

/-- An operand that is read gives its value, or the place that it names. -/
theorem origin_of_read? (hmem : operand ∈ op.operands)
    (h : operand.read? width env (base + op.triples * tripleSize) = some slot) :
    Origin width env base op slot := by
  rw [Operand.read?] at h
  split at h
  · obtain rfl := Option.some.inj h
    exact .temp _
  · next haccess =>
    obtain ⟨_, heval, rfl⟩ := Option.map_eq_some_iff.mp h
    exact .value hmem haccess heval
  · next haccess =>
    obtain ⟨_, heval, rfl⟩ := Option.map_eq_some_iff.mp h
    exact .place hmem (by rw [haccess]; rfl) heval

/-- An operand that is written to gives the place that it names. -/
theorem origin_of_write? (hmem : operand ∈ op.operands)
    (h : operand.write? width env (base + op.triples * tripleSize) = some slot) :
    Origin width env base op slot := by
  rw [Operand.write?] at h
  split at h
  · obtain rfl := Option.some.inj h
    exact .temp _
  · cases h
  · next haccess =>
    obtain ⟨_, heval, rfl⟩ := Option.map_eq_some_iff.mp h
    exact .place hmem (by rw [haccess]; rfl) heval

/-- A target gives the place that it names, in brackets or not. -/
theorem origin_of_target? (hmem : operand ∈ op.operands)
    (h : operand.target? width env (base + op.triples * tripleSize) = some slot) :
    Origin width env base op slot := by
  rw [Operand.target?] at h
  split at h
  · obtain rfl := Option.some.inj h
    exact .temp _
  · next haccess =>
    obtain ⟨_, heval, rfl⟩ := Option.map_eq_some_iff.mp h
    exact .place hmem (by rw [haccess]; rfl) heval
  · next haccess =>
    obtain ⟨_, heval, rfl⟩ := Option.map_eq_some_iff.mp h
    exact .place hmem (by rw [haccess]; rfl) heval

/-- The destination is one of the operands. -/
theorem mem_operands_of_destination? (h : op.destination? = some operand) :
    operand ∈ op.operands := by
  cases op with
  | sub | mov | addC | addR | add =>
      obtain rfl := Option.some.inj h
      exact .head _
  | subleq | hlt | jmp | je => cases h

/-- What is subtracted from has an origin too. -/
theorem Subtracts.origin {index : Nat} {a b : Slot} (h : Subtracts width env base op index a b) :
    Origin width env base op b := by
  cases h with
  | temp _ field => exact .temp field
  | destination _ hdst hwrite => exact origin_of_write? (mem_operands_of_destination? hdst) hwrite
  | bare _ hop hread =>
      subst hop
      exact origin_of_read? (.tail _ (.head _)) hread
  | first _ hop _ hread =>
      subst hop
      exact origin_of_read? (.head _) hread
  | second _ hop _ hread =>
      subst hop
      exact origin_of_read? (.tail _ (.head _)) hread
  | halt _ =>
      rw [← width.wrap_zero]
      exact .constant 0

/-- The addition of a cell to another, whichever of the two operations it belongs to. -/
theorem origins_additionTable {dst src : Operand} {dst' src' a b c : Slot} {index : Nat}
    (hlength : op.triples = 3) (hdst : op.destination? = some dst)
    (hwrite : dst.write? width env (base + op.triples * tripleSize) = some dst')
    (hsrc : src ∈ op.operands)
    (hread : src.read? width env (base + op.triples * tripleSize) = some src')
    (h : (additionTable base dst' src')[index]? = some (a, b, c)) :
    Origin width env base op a ∧ Subtracts width env base op index a b ∧
      Origin width env base op c := by
  have hnext : ∀ index < 3, Origin width env base op (.address (base + 3 * (index + 1 : Nat))) :=
    fun index hindex => .next (hlength ▸ hindex)
  match index, h with
  | 0, h =>
      cases h
      exact ⟨origin_of_read? hsrc hread, .temp _ _, hnext 0 (by decide)⟩
  | 1, h =>
      cases h
      exact ⟨.temp _, .destination _ hdst hwrite, hnext 1 (by decide)⟩
  | 2, h =>
      cases h
      exact ⟨.temp _, .temp _ _, hnext 2 (by decide)⟩

/-- The slots of a comparison. -/
theorem origins_je {x y target : Operand} {slots : List (Slot × Slot × Slot)} {index : Nat}
    {a b c : Slot} (hslots : (je x y target).expansion? width env base = some slots)
    (h : slots[index]? = some (a, b, c)) :
    Origin width env base (je x y target) a ∧
      Subtracts width env base (je x y target) index a b ∧
      Origin width env base (je x y target) c := by
  have hnext : ∀ index < 5, Origin width env base (je x y target)
      (.address (base + 3 * (index + 1 : Nat))) := fun _ hindex => .next hindex
  simp only [expansion?, Option.bind_eq_bind, Option.bind_eq_some_iff] at hslots
  obtain ⟨x', hx, y', hy, target', htarget, hslots⟩ := hslots
  obtain rfl := Option.some.inj hslots
  -- the third and the fifth triple write to the operands themselves
  match index, h with
  | 0, h =>
      cases h
      exact ⟨origin_of_read? (.head _) hx, .temp _ _, hnext 0 (by decide)⟩
  | 1, h =>
      cases h
      exact ⟨.temp _, .temp _ _, hnext 1 (by decide)⟩
  | 2, h =>
      cases h
      exact ⟨origin_of_read? (.tail _ (.head _)) hy, .first _ rfl rfl hx, hnext 3 (by decide)⟩
  | 3, h =>
      cases h
      exact ⟨.temp _, .temp _ _, hnext 4 (by decide)⟩
  | 4, h =>
      cases h
      exact ⟨.temp _, .second _ rfl rfl hy,
        origin_of_target? (.tail _ (.tail _ (.head _))) htarget⟩

/-- The slots of a move. -/
theorem origins_mov {dst src : Operand} {slots : List (Slot × Slot × Slot)} {index : Nat}
    {a b c : Slot} (hslots : (mov dst src).expansion? width env base = some slots)
    (h : slots[index]? = some (a, b, c)) :
    Origin width env base (mov dst src) a ∧ Subtracts width env base (mov dst src) index a b ∧
      Origin width env base (mov dst src) c := by
  have hnext : ∀ index < 4, Origin width env base (mov dst src)
      (.address (base + 3 * (index + 1 : Nat))) := fun _ hindex => .next hindex
  simp only [expansion?, Option.bind_eq_bind, Option.bind_eq_some_iff] at hslots
  obtain ⟨dst', hdst, src', hsrc, hslots⟩ := hslots
  obtain rfl := Option.some.inj hslots
  match index, h with
  | 0, h =>
      cases h
      exact ⟨origin_of_write? (.head _) hdst, .destination _ rfl hdst, hnext 0 (by decide)⟩
  | 1, h =>
      cases h
      exact ⟨origin_of_read? (.tail _ (.head _)) hsrc, .temp _ _, hnext 1 (by decide)⟩
  | 2, h =>
      cases h
      exact ⟨.temp _, .destination _ rfl hdst, hnext 2 (by decide)⟩
  | 3, h =>
      cases h
      exact ⟨.temp _, .temp _ _, hnext 3 (by decide)⟩

/-- The slots of an instruction of an expansion, one case for each operation. -/
theorem origins_of_expansion? {slots : List (Slot × Slot × Slot)} {index : Nat} {a b c : Slot}
    (hslots : op.expansion? width env base = some slots) (h : slots[index]? = some (a, b, c)) :
    Origin width env base op a ∧ Subtracts width env base op index a b ∧
      Origin width env base op c := by
  -- every triple but a jump goes on at the next one or at the end
  have hnext : ∀ index < op.triples,
      Origin width env base op (.address (base + 3 * (index + 1 : Nat))) := fun _ => .next
  -- the rows of each table are gone through; `index` is out of range after the last one
  cases op with
  | hlt =>
      obtain rfl := Option.some.inj hslots
      match index, h with
      | 0, h =>
          cases h
          exact ⟨width.wrap_zero ▸ .constant 0, .halt rfl, .halt⟩
  | jmp target =>
      simp only [expansion?, Option.bind_eq_bind, Option.bind_eq_some_iff] at hslots
      obtain ⟨target', htarget, hslots⟩ := hslots
      obtain rfl := Option.some.inj hslots
      match index, h with
      | 0, h =>
          cases h
          exact ⟨.temp _, .temp _ _, origin_of_target? (.head _) htarget⟩
  | subleq x y target =>
      simp only [expansion?, Option.bind_eq_bind, Option.bind_eq_some_iff] at hslots
      obtain ⟨x', hx, y', hy, target', htarget, hslots⟩ := hslots
      obtain rfl := Option.some.inj hslots
      match index, h with
      | 0, h =>
          cases h
          exact ⟨origin_of_read? (.head _) hx, .bare _ rfl hy,
            origin_of_target? (.tail _ (.tail _ (.head _))) htarget⟩
  | je x y target => exact origins_je hslots h
  | sub dst src =>
      replace hnext : ∀ index < 1, Origin width env base (.sub dst src)
        (.address (base + 3 * (index + 1 : Nat))) := hnext
      simp only [expansion?, Option.bind_eq_bind, Option.bind_eq_some_iff] at hslots
      obtain ⟨dst', hdst, src', hsrc, hslots⟩ := hslots
      obtain rfl := Option.some.inj hslots
      match index, h with
      | 0, h =>
          cases h
          exact ⟨origin_of_read? (.tail _ (.head _)) hsrc, .destination _ rfl hdst,
            hnext 0 (by decide)⟩
  | mov dst src => exact origins_mov hslots h
  | addC dst addend =>
      replace hnext : ∀ index < 1, Origin width env base (.addC dst addend)
        (.address (base + 3 * (index + 1 : Nat))) := hnext
      simp only [expansion?, Option.bind_eq_bind, Option.bind_eq_some_iff] at hslots
      obtain ⟨dst', hdst, addend', -, hslots⟩ := hslots
      obtain rfl := Option.some.inj hslots
      match index, h with
      | 0, h =>
          cases h
          exact ⟨.constant _, .destination _ rfl hdst, hnext 0 (by decide)⟩
  | addR dst src =>
      simp only [expansion?, Option.bind_eq_bind, Option.bind_eq_some_iff] at hslots
      obtain ⟨dst', hdst, src', hsrc, hslots⟩ := hslots
      obtain rfl := Option.some.inj hslots
      exact origins_additionTable rfl rfl hdst (.tail _ (.head _)) hsrc h
  | add dst src =>
      simp only [expansion?, Option.bind_eq_bind, Option.bind_eq_some_iff] at hslots
      obtain ⟨dst', hdst, src', hsrc, hslots⟩ := hslots
      have hlength := triples_add dst src
      rw [← Operand.isLiteral_of_read? hsrc] at hlength
      cases src' with
      | literal addend =>
          obtain rfl := Option.some.inj hslots
          match index, h with
          | 0, h =>
              cases h
              exact ⟨.constant _, .destination _ rfl hdst, hnext 0 (hlength ▸ Nat.one_pos)⟩
      | address _ | temp _ =>
          obtain rfl := Option.some.inj hslots
          exact origins_additionTable hlength rfl hdst (.tail _ (.head _)) hsrc h

/-- Every slot of an expansion has an origin. -/
theorem origin_of_mem {slots : List (Slot × Slot × Slot)}
    (hslots : op.expansion? width env base = some slots) (hslot : slot ∈ Slot.flatten slots) :
    Origin width env base op slot := by
  obtain ⟨⟨a, b, c⟩, htriple, hslot⟩ := List.mem_flatMap.mp hslot
  obtain ⟨index, hindex⟩ := List.getElem?_of_mem htriple
  obtain ⟨ha, hb, hc⟩ := origins_of_expansion? hslots hindex
  simp only [List.mem_cons, List.not_mem_nil, or_false] at hslot
  rcases hslot with rfl | rfl | rfl
  · exact ha
  · exact hb.origin
  · exact hc

/-- The literals of an expansion fit into cells. -/
theorem Origin.fits_literal {value : Int} (h : Origin width env base op (.literal value)) :
    width.Fits value := by
  cases h with
  | value _ _ heval => exact Expr.fits_eval heval
  | constant value => exact width.fits_wrap value

/-- The numbers of an expansion all fit if the end of the expansion does. -/
theorem Origin.fits (h : Origin width env base op slot) (hbase : 0 ≤ base)
    (hend : width.Fits (base + op.triples * tripleSize)) : slot.Fits width := by
  cases h with
  | temp _ => trivial
  | value _ _ heval | place _ _ heval => exact Expr.fits_eval heval
  | constant value => exact width.fits_wrap value
  | next hindex =>
      have hmax := hend.2
      unfold tripleSize at hmax
      exact Width.fits_of_nonneg (by omega) (by push_cast at hmax ⊢; omega)
  | halt => exact width.fits_neg_one

end Origins

end Operation

/-! ## Computations that fold constants only -/

namespace SymbolTable

variable {α β : Type} {width : Width} {range : ValueRange width}

/-- A computation that changes a table only by folding constants, and whose result is what a plain
function of the environment gives, in every environment from the table after it on. -/
structure Computes (range : ValueRange width) (m : Folding SymbolTable α)
    (plain : Environment → Option α) : Prop where
  sound : ∀ {table table' : SymbolTable} {a : α}, Sound range table → Yields m table a table' →
    Sound range table' ∧ Folds table table' ∧ ∀ env, table'.value?.Le env → plain env = some a

namespace Computes

theorem ret (a : α) : Computes range (pure a) fun _ => some a := by
  refine ⟨fun {table table' b} hsound h => ?_⟩
  obtain ⟨rfl, rfl⟩ := yields_pure.mp h
  exact ⟨hsound, .refl table, fun _ _ => rfl⟩

/-- A fault computes whatever it is compared with. -/
theorem fail (fault : Fault) (plain : Environment → Option α) :
    Computes range (throw fault) plain := ⟨fun _ h => absurd h yields_throw⟩

/-- What was computed first is still right after what is computed next. -/
theorem bind {m : Folding SymbolTable α} {f : α → Folding SymbolTable β}
    {plain : Environment → Option α} {next : α → Environment → Option β}
    (hm : Computes range m plain) (hf : ∀ a, Computes range (f a) (next a)) :
    Computes range (m >>= f) fun env => (plain env).bind (next · env) := by
  refine ⟨fun {table table'' b} hsound h => ?_⟩
  obtain ⟨a, table', hfirst, hrest⟩ := yields_bind.mp h
  obtain ⟨hsound', hfolds, hplain⟩ := hm.sound hsound hfirst
  obtain ⟨hsound'', hfolds', hnext⟩ := (hf a).sound hsound' hrest
  refine ⟨hsound'', hfolds.trans hfolds', fun env hle => ?_⟩
  have hfirst' := hplain env (hfolds'.toExtends.le.trans hle)
  exact Option.bind_eq_some_iff.mpr ⟨a, hfirst', hnext env hle⟩

/-- What only ends in a fault computes anything. -/
theorem bind_fail {m : Folding SymbolTable α} (fault : Fault) (plain : Environment → Option β) :
    Computes range (do let _ ← m; throw fault) plain := by
  refine ⟨fun _ h => ?_⟩
  obtain ⟨_, _, -, hthrow⟩ := yields_bind.mp h
  exact absurd hthrow yields_throw

/-- A function of a result computes the function. -/
theorem map {m : Folding SymbolTable α} {plain : Environment → Option α} (f : α → β)
    (hm : Computes range m plain) :
    Computes range (do pure (f (← m))) fun env => (plain env).map f := by
  simpa only [Option.map_eq_bind, Function.comp_def] using hm.bind fun a => ret (f a)

end Computes

/-- Evaluation computes the value of the expression. -/
theorem computes_evaluate (e : Expr) {here : Option Int}
    (hhere : ∀ position, here = some position → width.Fits position) :
    Computes range (evaluate e here) fun env => e.eval width env here := by
  refine ⟨fun {table table' value} hsound h => ?_⟩
  obtain ⟨hsound', hfolds, heval⟩ := evaluate_sound hhere hsound h
  exact ⟨hsound', hfolds, fun env hle => Expr.eval_mono hle e heval⟩

/-- So does evaluation at a position. -/
theorem computes_evaluate_at (e : Expr) {here : Int} (hhere : width.Fits here) :
    Computes range (evaluate e (some here)) fun env => e.eval width env (some here) :=
  computes_evaluate e fun _ heq => Option.some.inj heq ▸ hhere

end SymbolTable

namespace Operand

open SymbolTable

variable {width : Width} {range : ValueRange width} {here : Int} (hhere : width.Fits here)

include hhere

/-- An operand that is read is lowered to its slot. -/
theorem computes_lowerRead (operand : Operand) :
    Computes range (operand.lowerRead here) fun env => operand.read? width env here := by
  simp only [lowerRead, read?]
  cases operand.access with
  | temp field => exact .ret _
  | immediate value => exact (computes_evaluate_at value hhere).map Slot.literal
  | memory address => exact (computes_evaluate_at address hhere).map Slot.address

/-- So is one that is written to. -/
theorem computes_lowerWrite (operand : Operand) :
    Computes range (operand.lowerWrite here) fun env => operand.write? width env here := by
  simp only [lowerWrite, write?]
  cases operand.access with
  | temp field => exact .ret _
  | immediate value => exact .bind_fail _ _
  | memory address => exact (computes_evaluate_at address hhere).map Slot.address

/-- So is a target. -/
theorem computes_lowerTarget (operand : Operand) :
    Computes range (operand.lowerTarget here) fun env => operand.target? width env here := by
  simp only [lowerTarget, target?]
  cases operand.access with
  | temp field => exact .ret _
  | immediate place | memory place => exact (computes_evaluate_at place hhere).map Slot.address

/-- An addend is lowered to its value. -/
theorem computes_lowerAddend (operand : Operand) :
    Computes range (operand.lowerAddend here) fun env => operand.addend? width env here := by
  simp only [lowerAddend, addend?]
  cases operand.access with
  | temp field => exact .fail _ _
  | immediate value => exact computes_evaluate_at value hhere
  | memory address => exact .bind_fail _ _

end Operand

namespace Operation

open SymbolTable

variable {width : Width} {range : ValueRange width}

/-- The addition of a constant has the negated constant as a literal. -/
theorem computes_addConstantSlots (base : Int) (location : Location) (dst : Slot) (addend : Int) :
    Computes range (addConstantSlots base location dst addend) fun _ =>
      some [(.literal (width.wrap (-addend)), dst, .address (base + 3))] := by
  refine ⟨fun {table table' slots} hsound h => ?_⟩
  simp only [addConstantSlots, yields_bind, yields_get, yields_liftM, yields_pure] at h
  obtain ⟨_, _, ⟨rfl, rfl⟩, cell, _, ⟨hcell, rfl⟩, rfl, rfl⟩ := h
  rw [Arithmetic.eq_wrap_of_toCell hcell, hsound.width_eq]
  exact ⟨hsound, .refl table, fun _ _ => rfl⟩

/-- The triples of an operation are those of the table of expansions. -/
theorem computes_slots (op : Operation) (base : Int) (location : Location)
    (hhere : width.Fits (base + op.triples * tripleSize)) :
    Computes range (op.slots base location) fun env => op.expansion? width env base := by
  cases op with
  | hlt => exact .ret _
  | jmp target => exact (target.computes_lowerTarget hhere).bind fun _ => .ret _
  | sub dst src | mov dst src | addR dst src =>
      exact (dst.computes_lowerWrite hhere).bind fun _ =>
        (src.computes_lowerRead hhere).bind fun _ => .ret _
  | addC dst addend =>
      exact (dst.computes_lowerWrite hhere).bind fun _ =>
        (addend.computes_lowerAddend hhere).bind fun _ => computes_addConstantSlots _ _ _ _
  | subleq a b target =>
      exact (a.computes_lowerRead hhere).bind fun _ => (b.computes_lowerRead hhere).bind fun _ =>
        (target.computes_lowerTarget hhere).bind fun _ => .ret _
  | je a b target =>
      exact (a.computes_lowerRead hhere).bind fun _ => (b.computes_lowerRead hhere).bind fun _ =>
        (target.computes_lowerTarget hhere).bind fun _ => .ret _
  -- what an addition does is known only when its source has been read
  | add dst src =>
      refine (dst.computes_lowerWrite hhere).bind fun dst => ?_
      refine (src.computes_lowerRead hhere).bind fun src => ?_
      cases src with
      | literal addend => exact computes_addConstantSlots _ _ _ _
      | address _ | temp _ => exact .ret _

end Operation

/-! ## Data -/

namespace Datum

/-- The cells of a value in an environment. -/
def cells? (width : Width) (env : Environment) (here : Int) : Datum → Option (List Int)
  | .text t => some ((bytes t).map fun (byte : Nat) => width.wrap byte)
  | .value e => (e.eval width env (some here)).map fun value => [value]

/-- The cells of a row of values in an environment. -/
def cellsOf? (width : Width) (env : Environment) (here : Int) : List Datum → Option (List Int)
  | [] => some []
  | datum :: rest => do
      let first ← datum.cells? width env here
      let others ← cellsOf? width env here rest
      pure (first ++ others)

variable {width : Width} {range : ValueRange width}

/-- Bytes are wrapped into cells, whether strictly or not. -/
theorem eq_map_wrap_of_mapM_toCell {arith : Arithmetic} {location : Option Location}
    {bytes : List Nat} {cells : List Int}
    (h : (bytes.mapM fun (byte : Nat) => arith.toCell byte location) = .ok cells) :
    cells = bytes.map fun (byte : Nat) => arith.width.wrap byte := by
  induction bytes generalizing cells with
  | nil =>
      rw [List.mapM_nil] at h
      exact (Except.ok.inj h).symm
  | cons byte rest ih =>
      rw [List.mapM_cons] at h
      cases hfirst : arith.toCell byte location with
      | error fault =>
          rw [hfirst] at h
          cases h
      | ok first =>
          rw [hfirst] at h
          cases hrest : rest.mapM fun (byte : Nat) => arith.toCell byte location with
          | error fault =>
              rw [hrest] at h
              cases h
          | ok others =>
              rw [hrest] at h
              obtain rfl := Except.ok.inj h
              rw [Arithmetic.eq_wrap_of_toCell hfirst, ih hrest]
              rfl

/-- A datum is turned into its cells. -/
theorem computes_cells (size : DataSize) (location : Location) {here : Int}
    (hhere : width.Fits here) (datum : Datum) :
    SymbolTable.Computes range (datum.cells size location here) fun env =>
      datum.cells? width env here := by
  cases datum with
  | text t =>
      refine ⟨fun {table table' row} hsound h => ?_⟩
      simp only [Datum.cells, yields_bind, yields_get, yields_liftM] at h
      obtain ⟨_, _, ⟨rfl, rfl⟩, hcells, rfl⟩ := h
      rw [eq_map_wrap_of_mapM_toCell hcells, hsound.width_eq]
      exact ⟨hsound, .refl table, fun _ _ => rfl⟩
  | value e =>
      simp only [cells, cells?, Option.map_eq_bind]
      refine (SymbolTable.computes_evaluate_at e hhere).bind fun value => ?_
      split
      · exact ⟨fun _ h => by simp at h⟩
      · exact .ret _

/-- So are all data of an item. -/
theorem computes_cellsOf (size : DataSize) (location : Location) {here : Int}
    (hhere : width.Fits here) (values : List Datum) :
    SymbolTable.Computes range (cellsOf size location here values) fun env =>
      cellsOf? width env here values := by
  induction values with
  | nil => exact .ret _
  | cons datum rest ih =>
      exact (computes_cells size location hhere datum).bind fun _ => ih.bind fun _ => .ret _

/-- A datum has as many cells as the first pass counts for it. -/
theorem length_cells? {env : Environment} {here : Int} {datum : Datum} {cells : List Int}
    (h : datum.cells? width env here = some cells) : cells.length = datum.size := by
  cases datum with
  | text t =>
      obtain rfl := Option.some.inj h
      exact List.length_map _
  | value e =>
      obtain ⟨value, -, rfl⟩ := Option.map_eq_some_iff.mp h
      rfl

/-- A row of values has as many cells as the first pass counts for it. -/
theorem length_cellsOf? {env : Environment} {here : Int} {values : List Datum} {cells : List Int}
    (h : cellsOf? width env here values = some cells) :
    cells.length = (values.map Datum.size).sum := by
  induction values generalizing cells with
  | nil =>
      obtain rfl := Option.some.inj h
      rfl
  | cons datum rest ih =>
      simp only [cellsOf?, Option.bind_eq_bind, Option.bind_eq_some_iff] at h
      obtain ⟨first, hfirst, others, hothers, h⟩ := h
      obtain rfl := Option.some.inj h
      rw [List.length_append, length_cells? hfirst, ih hothers, List.map_cons, List.sum_cons]

end Datum

/-! ## Contents -/

/-- The literals that the contents of an item use, in order. -/
def Content.literals : Content → List Int
  | .code _ triples => (triples.flatMap Triple.slots).filterMap Slot.literal?
  | .cells _ => []

/-- The literals that the expansion of an item uses, in order. -/
def Item.literals (width : Width) (env : Environment) (item : Item) : List Int :=
  match item.body with
  | .operation op =>
      (Slot.flatten ((op.expansion? width env item.address).getD [])).filterMap Slot.literal?
  | .data _ _ | .reserve _ _ => []

/-- The literals of an item are those of its expansion. -/
theorem Item.mem_literals {width : Width} {env : Environment} {item : Item} {value : Int}
    (h : value ∈ item.literals width env) :
    ∃ op slots, item.body = .operation op ∧
      op.expansion? width env item.address = some slots ∧ .literal value ∈ Slot.flatten slots := by
  rw [literals] at h
  split at h
  · next op hbody =>
    obtain ⟨slot, hslot, hvalue⟩ := List.mem_filterMap.mp h
    cases hslots : op.expansion? width env item.address with
    | none =>
        rw [hslots] at hslot
        cases hslot
    | some slots =>
        rw [hslots] at hslot
        cases slot with
        | literal literal =>
            obtain rfl := Option.some.inj hvalue
            exact ⟨op, slots, hbody, hslots, hslot⟩
        | address _ | temp _ => cases hvalue
  · cases h
  · cases h

/-- What an item becomes in an environment: the triples of the table of expansions, the values of a
row of data, or zeros. -/
def Item.Becomes (width : Width) (env : Environment) (item : Item) : Content → Prop
  | .code op triples => item.body = .operation op ∧
      ∃ slots, op.expansion? width env item.address = some slots ∧
        triples = Operation.number item.address 0 slots
  | .cells cells =>
      match item.body with
      | .operation _ => False
      | .data _ values => Datum.cellsOf? width env item.endAddress values = some cells
      | .reserve _ count =>
          ∃ number, count.eval width env none = some number ∧
            cells = List.replicate number.toNat 0

/-- Numbering triples keeps their slots. -/
theorem Operation.flatMap_slots_number (base : Int) (index : Nat)
    (slots : List (Slot × Slot × Slot)) :
    (number base index slots).flatMap Triple.slots = Slot.flatten slots := by
  induction slots generalizing index with
  | nil => rfl
  | cons slot rest ih =>
      rw [number, List.flatMap_cons, ih]
      rfl

/-- What an item becomes has its literals. -/
theorem Item.Becomes.literals_eq {width : Width} {env : Environment} {item : Item}
    {content : Content} (h : item.Becomes width env content) :
    content.literals = item.literals width env := by
  cases content with
  | code op triples =>
      obtain ⟨hbody, slots, hslots, rfl⟩ := h
      simp only [Content.literals, Item.literals, hbody, hslots, Operation.flatMap_slots_number,
        Option.getD_some]
  | cells cells =>
      rw [Becomes] at h
      rw [Content.literals, Item.literals]
      cases hbody : item.body with
      | operation op =>
          rw [hbody] at h
          exact h.elim
      | data _ _ | reserve _ _ => rfl

section Contents

open SymbolTable

variable {width : Width} {range : ValueRange width} {table table' : SymbolTable}

/-- The literals of slots are pooled in the order of the slots. -/
theorem Operation.internSlots_sound {slots : List Slot} {u : Unit} (hsound : Sound range table)
    (hpooled : Pooled width table) (h : Yields (internSlots slots) table u table') :
    Interns range ((slots.filterMap Slot.literal?).map width.wrap) table table' := by
  induction slots generalizing table with
  | nil =>
      obtain ⟨-, rfl⟩ := yields_pure.mp h
      exact .refl hsound hpooled
  | cons slot rest ih =>
      cases slot with
      | literal value =>
          obtain ⟨_, table₁, hfirst, hrest⟩ := yields_bind.mp h
          have hinterns := intern_sound hsound hpooled hfirst
          exact hinterns.trans (ih hinterns.sound hinterns.pooled hrest)
      | address _ | temp _ => exact ih hsound hpooled h

/-- The contents of an item are the plain ones, and its literals are entered into the pool. -/
theorem Item.content_sound {item : Item} {content : Content} {env : Environment}
    (hsize : item.body.size? width env = some item.size) (hend : width.Fits item.endAddress)
    (hsound : Sound range table) (hpooled : Pooled width table)
    (h : Yields item.content table content table') :
    Interns range (content.literals.map width.wrap) table table' ∧
      ∀ env, table'.value?.Le env → item.Becomes width env content := by
  simp only [Item.content, Body.content] at h
  cases hbody : item.body with
  | operation op =>
      simp only [hbody, Operation.expand, yields_bind, yields_pure] at h
      obtain ⟨_, _, ⟨slots, table₁, hslots, _, _, hintern, rfl, rfl⟩, rfl, rfl⟩ := h
      -- the position is that of the cell after the expansion
      have hhere : width.Fits (item.address + op.triples * tripleSize) := by
        rw [hbody, Body.size?, Option.some_inj] at hsize
        rw [endAddress, ← hsize] at hend
        exact_mod_cast hend
      obtain ⟨hsound₁, hfolds, hplain⟩ :=
        (op.computes_slots item.address item.location hhere).sound hsound hslots
      have hinterns := Operation.internSlots_sound hsound₁ (hpooled.folds hfolds) hintern
      -- the operands only fold constants; the literals are interned after them
      refine ⟨(Interns.of_folds hsound₁ hpooled hfolds).trans hinterns, fun env hle => ?_⟩
      exact ⟨hbody, slots, hplain env (hinterns.toExtends.le.trans hle), rfl⟩
  | data size values =>
      simp only [hbody, yields_bind, yields_pure] at h
      obtain ⟨cells, _, hcells, rfl, rfl⟩ := h
      obtain ⟨hsound₁, hfolds, hplain⟩ :=
        (Datum.computes_cellsOf size item.location hend values).sound hsound hcells
      refine ⟨.of_folds hsound₁ hpooled hfolds, fun env hle => ?_⟩
      simp only [Becomes, hbody]
      exact hplain env hle
  | reserve size count =>
      simp only [hbody, yields_bind, yields_pure] at h
      obtain ⟨number, _, hnumber, rfl, rfl⟩ := h
      obtain ⟨hsound₁, hfolds, hplain⟩ :=
        (computes_evaluate count fun _ hp => by cases hp).sound hsound hnumber
      refine ⟨.of_folds hsound₁ hpooled hfolds, fun env hle => ?_⟩
      simp only [Becomes, hbody]
      exact ⟨number, hplain env hle, rfl⟩

/-- The second pass gives every item its plain contents, and the pool holds the literals of all of
them. -/
theorem Item.contents_sound {items : List Item} {contents : List (Item × Content)}
    {env : Environment} (hsizes : ∀ item ∈ items, item.body.size? width env = some item.size)
    (hends : ∀ item ∈ items, width.Fits item.endAddress)
    (hsound : Sound range table) (hpooled : Pooled width table)
    (h : Yields (Item.contents items) table contents table') :
    contents.map Prod.fst = items ∧
      Interns range ((contents.flatMap (·.2.literals)).map width.wrap) table table' ∧
      ∀ env, table'.value?.Le env → ∀ pair ∈ contents, pair.1.Becomes width env pair.2 := by
  induction items generalizing table contents with
  | nil =>
      obtain ⟨rfl, rfl⟩ := yields_pure.mp h
      exact ⟨rfl, .refl hsound hpooled, by simp⟩
  | cons item rest ih =>
      simp only [Item.contents, yields_bind, yields_pure] at h
      obtain ⟨content, table₁, hcontent, others, _, hothers, rfl, rfl⟩ := h
      obtain ⟨hinterns₁, hbecomes₁⟩ := Item.content_sound (hsizes item (by simp))
        (hends item (by simp)) hsound hpooled hcontent
      obtain ⟨hitems, hinterns₂, hbecomes₂⟩ :=
        ih (fun item hmem => hsizes item (List.mem_cons_of_mem _ hmem))
          (fun item hmem => hends item (List.mem_cons_of_mem _ hmem)) hinterns₁.sound
          hinterns₁.pooled hothers
      -- later items keep the values that an item was expanded with
      refine ⟨by rw [List.map_cons, hitems], ?_, fun env hle pair hmem => ?_⟩
      · rw [List.flatMap_cons, List.map_append]
        exact hinterns₁.trans hinterns₂
      -- the contents were found in an earlier table, whose values are in all later ones
      · rcases List.mem_cons.mp hmem with rfl | hmem
        · exact hbecomes₁ env (hinterns₂.toExtends.le.trans hle)
        · exact hbecomes₂ env hle pair hmem

end Contents

end Subleq
