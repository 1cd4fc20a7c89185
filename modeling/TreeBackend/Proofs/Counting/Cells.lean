import TreeBackend.Proofs.Subscripts

/-!
# The cells of variables

Code finds the cell of a global variable under its label, and that of any other variable at an
offset from a frame to which static links lead.  What leaves the frame pointer and these links
alone leaves the variable where it is.
-/

namespace TreeBackend

open Source (Node)
open Lowering Machine

/-! ### Where static links lead -/

/-- Links lead to the same place as long as the ones on the way hold what they held. -/
theorem Machine.Memory.follow_congr {before after : Memory} {address : Int} {hops : Nat}
    (same : ∀ fewer < hops, ∀ link, before.follow address fewer = some link →
      after.read? link = before.read? link) :
    after.follow address hops = before.follow address hops := by
  induction hops with
  | zero => rfl
  | succ hops ih =>
      have inner := ih fun fewer less => same fewer (Nat.lt_succ_of_lt less)
      simp only [Memory.follow, inner]
      cases leads : before.follow address hops with
      | none => rfl
      | some link =>
          have word := same hops (Nat.lt_succ_self hops) link leads
          simp only [Option.bind_some, word]

/-- Where a number of static links lead from the frame pointer. -/
def Machine.outwards? (machine : Machine) (hops : Nat) : Option Int :=
  (machine.memory.address? .framePointer).bind fun frame => machine.memory.follow frame hops

section Evaluation

variable {call : Label → List Int → Exec Int} {temps : Temps} {machine machine' : Machine}
  {level : Nat} {storage : Storage}

/-- Code that goes outwards has the value to which static links lead. -/
theorem Machine.eval_enclosingFrame_eq_ok {hops : Nat} {value : Int} :
    eval call temps (enclosingFrame hops) machine = .ok value machine' ↔
      machine.outwards? hops = some value ∧ machine' = machine := by
  constructor
  · intro evaluated
    obtain ⟨frame, known⟩ := exists_framePointer_of_eval evaluated
    obtain ⟨same, leads⟩ := follow_of_eval known evaluated
    exact ⟨Option.bind_eq_some_iff.mpr ⟨frame, known, leads⟩, same⟩
  · rintro ⟨leads, rfl⟩
    obtain ⟨frame, known, follows⟩ := Option.bind_eq_some_iff.mp leads
    induction hops generalizing value with
    | zero =>
        rw [enclosingFrame, IR.Expr.framePointer, eval_name]
        exact labelAddress_eq_ok.mpr ⟨known.trans follows, rfl⟩
    | succ hops ih =>
        obtain ⟨link, inner, read⟩ := Option.bind_eq_some_iff.mp follows
        have isLink : machine'.outwards? hops = some link :=
          Option.bind_eq_some_iff.mpr ⟨frame, known, inner⟩
        obtain ⟨word, found, isInt⟩ := Option.bind_eq_some_iff.mp read
        cases word with
        | int number =>
            obtain rfl := Option.some_inj.mp isInt
            exact eval_mem_eq_ok.mpr ⟨link, ih isLink inner, memory_loadInt_eq_ok.mpr found⟩
        | str | code => cases isInt

/-! ### Where cells are -/

namespace Machine

/-- Where code of a function of some level finds the cell of a variable.  This is where the
variable begins, but for an offset that does not fit. -/
def cellOf? (machine : Machine) (level : Nat) : Storage → Option Int
  | .global slot => machine.memory.address? slot.label
  | storage => (machine.baseOf? level storage).map Word.wrap

theorem cellOf?_stack {slot : StackSlot}
    (isStack : storage = .localVar slot ∨ storage = .parameter slot) :
    machine.cellOf? level storage = (machine.outwards? (level - slot.level)).map fun owner =>
      Word.wrap (owner + slot.offset) := by
  have begins : (machine.baseOf? level storage).map Word.wrap =
      (machine.outwards? (level - slot.level)).map fun owner =>
        Word.wrap (owner + slot.offset) := by
    rcases isStack with rfl | rfl <;>
      simp [baseOf?, outwards?, Option.map_eq_bind, Option.bind_assoc]
  rcases isStack with rfl | rfl <;> exact begins

def numberOf? (machine : Machine) (level : Nat) (storage : Storage) : Option Int :=
  (machine.cellOf? level storage).bind fun cell => (machine.memory.read? cell).bind Value.asInt?

/-- The words by which code of a function of some level finds the frame of a variable. -/
def linksTo (machine : Machine) (level : Nat) : Storage → Set Int
  | .global _ => ∅
  | .localVar slot | .parameter slot =>
      {link | ∃ hops < level - slot.level, machine.outwards? hops = some link}

/-- The cell of a variable is none of the words that lead there. -/
def IsApart (machine : Machine) (level : Nat) (storage : Storage) : Prop :=
  ∀ cell, machine.cellOf? level storage = some cell → cell ∉ machine.linksTo level storage

/-- Nothing leads to the cell of a global variable or of a variable of the function itself. -/
theorem isApart_of_near (near : ∀ slot, storage = .localVar slot ∨ storage = .parameter slot →
    level ≤ slot.level) : machine.IsApart level storage := by
  intro cell _ isLink
  match storage with
  | .global _ => exact isLink
  | .localVar slot =>
      obtain ⟨hops, less, -⟩ := isLink
      have own := near slot (.inl rfl)
      omega
  | .parameter slot =>
      obtain ⟨hops, less, -⟩ := isLink
      have own := near slot (.inr rfl)
      omega

/-- Words can be read at the addresses of words only. -/
theorem isAddress_of_read? {memory : Memory} {address : Int} {value : Value}
    (found : memory.read? address = some value) : memory.isAddress address = true := by
  by_contra invalid
  rw [Memory.read?, if_neg invalid] at found
  cases found

theorem numberOf?_eq_some {number : Int} : machine.numberOf? level storage = some number ↔
    ∃ cell, machine.cellOf? level storage = some cell ∧
      machine.memory.read? cell = some (.int number) := by
  rw [numberOf?, Option.bind_eq_some_iff]
  refine exists_congr fun cell => and_congr_right fun _ => ?_
  cases machine.memory.read? cell with
  | none => simp
  | some word => cases word <;> simp [Value.asInt?]

end Machine

variable {context : LoweringContext} {reference : Node} {base : IR.Expr}

/-- The code for the address of a variable finds its cell. -/
theorem Lowering.Locates.eval_eq_ok (locates : Locates context level reference storage base)
    {place : Int} : eval call temps base machine = .ok place machine' ↔
      machine.cellOf? level storage = some place ∧ machine' = machine := by
  rcases locates.cases with ⟨slot, rfl, rfl⟩ | ⟨slot, isStack, -, rfl⟩
  · rw [eval_name]
    exact labelAddress_eq_ok
  · rw [cellOf?_stack isStack, eval_binop_eq_ok, Option.map_eq_some_iff]
    constructor
    · rintro ⟨owner, _, _, owners, offsets, added⟩
      obtain ⟨rfl, rfl⟩ := eval_const_eq_ok.mp offsets
      obtain ⟨leads, rfl⟩ := eval_enclosingFrame_eq_ok.mp owners
      exact ⟨⟨owner, leads, Option.some_inj.mp added⟩, rfl⟩
    · rintro ⟨⟨owner, leads, rfl⟩, rfl⟩
      exact ⟨owner, _, _, eval_enclosingFrame_eq_ok.mpr ⟨leads, rfl⟩,
        eval_const_eq_ok.mpr ⟨rfl, rfl⟩, rfl⟩

/-- The code for the value of a variable finds the number in its cell. -/
theorem Lowering.Locates.eval_mem_eq_ok (locates : Locates context level reference storage base)
    {number : Int} : eval call temps (.mem base) machine = .ok number machine' ↔
      machine.numberOf? level storage = some number ∧ machine' = machine := by
  rw [Machine.eval_mem_eq_ok, numberOf?_eq_some]
  constructor
  · rintro ⟨place, places, loaded⟩
    obtain ⟨isCell, rfl⟩ := locates.eval_eq_ok.mp places
    exact ⟨⟨place, isCell, memory_loadInt_eq_ok.mp loaded⟩, rfl⟩
  · rintro ⟨⟨place, isCell, found⟩, rfl⟩
    exact ⟨place, locates.eval_eq_ok.mpr ⟨isCell, rfl⟩, memory_loadInt_eq_ok.mpr found⟩

end Evaluation

/-! ### What stays where it is -/

namespace Machine

variable {level : Nat} {storage : Storage} {before after : Machine}

/-- What leads to a variable from code of a function of some level is the same in two machines. -/
structure KeepsPath (level : Nat) (storage : Storage) (before after : Machine) : Prop where
  framePointer :
    after.memory.address? .framePointer = before.memory.address? .framePointer
  label : ∀ slot, storage = .global slot →
    after.memory.address? slot.label = before.memory.address? slot.label
  links : ∀ link ∈ before.linksTo level storage,
    after.memory.read? link = before.memory.read? link

/-- The cell of a variable, and what leads there, is the same in two machines. -/
structure KeepsCell (level : Nat) (storage : Storage) (before after : Machine) : Prop extends
    KeepsPath level storage before after where
  cell : ∀ place, before.cellOf? level storage = some place →
    after.memory.read? place = before.memory.read? place

/-- Nothing that code can change about a variable is different in two machines: the pointer from
which it is reached, or which it is named like, the links on the way and its cell. -/
structure SparesCell (level : Nat) (storage : Storage) (before after : Machine) : Prop where
  framePointer :
    after.memory.address? .framePointer = before.memory.address? .framePointer
  stackPointer : ∀ slot, storage = .global slot → slot.label = .stackPointer →
    after.memory.address? .stackPointer = before.memory.address? .stackPointer
  links : ∀ link ∈ before.linksTo level storage,
    after.memory.read? link = before.memory.read? link
  cell : ∀ place, before.cellOf? level storage = some place →
    after.memory.read? place = before.memory.read? place

namespace SparesCell

theorem of_memory_eq (same : after.memory = before.memory) :
    SparesCell level storage before after where
  framePointer := by rw [same]
  stackPointer _ _ _ := by rw [same]
  links _ _ := by rw [same]
  cell _ _ := by rw [same]

/-- The labels of other variables stay where they are in any case. -/
theorem keepsCell (spares : SparesCell level storage before after)
    (steady : Steady before after) : KeepsCell level storage before after where
  framePointer := spares.framePointer
  label slot isGlobal := by
    by_cases isFrame : slot.label = .framePointer
    · rw [isFrame, spares.framePointer]
    by_cases isStack : slot.label = .stackPointer
    · rw [isStack, spares.stackPointer slot isGlobal isStack]
    exact steady.labels slot.label isFrame isStack
  links := spares.links
  cell := spares.cell

end SparesCell

namespace KeepsPath

/-- As far as a variable is away, links lead to the same frames. -/
theorem outwards?_eq (keeps : KeepsPath level storage before after) {slot : StackSlot}
    (isStack : storage = .localVar slot ∨ storage = .parameter slot) {hops : Nat}
    (near : hops ≤ level - slot.level) : after.outwards? hops = before.outwards? hops := by
  rw [outwards?, outwards?, keeps.framePointer]
  cases known : before.memory.address? .framePointer with
  | none => rfl
  | some frame =>
      refine Memory.follow_congr fun fewer less link leads => keeps.links link ?_
      have isLink : ∃ hops < level - slot.level, before.outwards? hops = some link :=
        ⟨fewer, less.trans_le near, Option.bind_eq_some_iff.mpr ⟨frame, known, leads⟩⟩
      rcases isStack with rfl | rfl <;> exact isLink

theorem cellOf?_eq (keeps : KeepsPath level storage before after) :
    after.cellOf? level storage = before.cellOf? level storage := by
  have stack {slot : StackSlot} (isStack : storage = .localVar slot ∨ storage = .parameter slot) :
      after.cellOf? level storage = before.cellOf? level storage := by
    rw [cellOf?_stack isStack, cellOf?_stack isStack, keeps.outwards?_eq isStack (Nat.le_refl _)]
  cases storage with
  | global slot => exact keeps.label slot rfl
  | localVar slot => exact stack (.inl rfl)
  | parameter slot => exact stack (.inr rfl)

theorem linksTo_eq (keeps : KeepsPath level storage before after) :
    after.linksTo level storage = before.linksTo level storage := by
  ext link
  cases storage with
  | global => exact Iff.rfl
  | localVar slot =>
      refine exists_congr fun hops => and_congr_right fun less => ?_
      rw [keeps.outwards?_eq (.inl rfl) less.le]
  | parameter slot =>
      refine exists_congr fun hops => and_congr_right fun less => ?_
      rw [keeps.outwards?_eq (.inr rfl) less.le]

/-- A word that is none of the links leads nowhere. -/
theorem writeWord {place : Int} (value : Value) (valid : before.memory.isAddress place = true)
    (apart : place ∉ before.linksTo level storage) :
    KeepsPath level storage before (before.writeWord place value) where
  framePointer := rfl
  label _ _ := rfl
  links link isLink := by
    rw [read?_writeWord _ _ _ valid, if_neg]
    rintro rfl
    exact apart isLink

end KeepsPath

theorem IsApart.of_keepsPath (apart : before.IsApart level storage)
    (keeps : KeepsPath level storage before after) : after.IsApart level storage := by
  intro cell isCell
  rw [keeps.linksTo_eq]
  exact apart cell (keeps.cellOf?_eq ▸ isCell)

section WriteWord

variable {cell : Int} (apart : before.IsApart level storage)
  (isCell : before.cellOf? level storage = some cell)
  (valid : before.memory.isAddress cell = true)

include apart isCell valid

/-- Writing to the cell of a variable does not move it. -/
theorem IsApart.writeWord (value : Value) :
    (before.writeWord cell value).IsApart level storage :=
  apart.of_keepsPath (.writeWord value valid (apart cell isCell))

theorem IsApart.numberOf?_writeWord (number : Int) :
    (before.writeWord cell (.int number)).numberOf? level storage = some number := by
  have keeps : KeepsPath level storage before (before.writeWord cell (.int number)) :=
    .writeWord _ valid (apart cell isCell)
  refine numberOf?_eq_some.mpr ⟨cell, keeps.cellOf?_eq.trans isCell, ?_⟩
  rw [read?_writeWord _ _ _ valid, if_pos rfl]

end WriteWord

theorem KeepsCell.numberOf?_eq (keeps : KeepsCell level storage before after) :
    after.numberOf? level storage = before.numberOf? level storage := by
  rw [numberOf?, numberOf?, keeps.cellOf?_eq]
  cases isCell : before.cellOf? level storage with
  | none => rfl
  | some place => rw [Option.bind_some, Option.bind_some, keeps.cell place isCell]

end Machine

end TreeBackend
