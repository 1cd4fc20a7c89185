import TreeBackend.Proofs.Lowering.Assignments
import TreeBackend.Proofs.Lowering.Discipline
import TreeBackend.Proofs.Lowering.Ranges
import TreeBackend.Proofs.Source.Tables

/-!
# Lowering subscripts

A variable with subscripts behind it becomes the word at an address.  This address is that of
the variable and, for each subscript, as many steps as the subscript says of the size of what
is left behind it.  Nothing is read on the way: the word at the address of an array is peeled
off when a subscript is applied to it.
-/

namespace TreeBackend

namespace Source

/-- A reference to a variable of some type has certain subscripts, and the nodes of the
subscripts have the types that are left. -/
inductive IsSubscripted (resolution : Resolution) (reference : Node) (ty : Ty) :
    Expr → List Expr → Ty → Prop
  | name (name : String) : IsSubscripted resolution reference ty (.name reference name) [] ty
  | index {array subscript : Expr} {subscripts : List Expr} {length : Int} {element : Ty}
      {node : Node} :
      IsSubscripted resolution reference ty array subscripts (.array length element) →
      resolution.typeOf? node.id = some element →
      IsSubscripted resolution reference ty (.binary node .index array subscript)
        (subscripts ++ [subscript]) element

namespace IsSubscripted

variable {resolution : Resolution} {reference : Node} {ty left : Ty} {expression : Expr}
  {subscripts : List Expr}

theorem after? (chain : IsSubscripted resolution reference ty expression subscripts left) :
    ty.after? subscripts.length = some left := by
  induction chain with
  | name => exact Ty.after?_zero
  | index _ _ ih =>
      rw [List.length_append]
      exact Ty.after?_succ ih

theorem isCell (chain : IsSubscripted resolution reference ty expression subscripts left) :
    expression.isCell = true := by
  cases chain <;> rfl

end IsSubscripted

end Source

namespace Lowering

open Source
open IR (TempSupply)

def elementAddress (base : IR.Expr) : Ty → List IR.Expr → IR.Expr
  | .array _ element, index :: rest =>
      elementAddress (.binop .add base (.binop .mul index (.const element.storageSize))) element
        rest
  | _, _ => base

theorem elementAddress_nil (base : IR.Expr) (ty : Ty) : elementAddress base ty [] = base := by
  cases ty <;> rfl

theorem elementAddress_snoc {base index : IR.Expr} {ty element : Ty} {indices : List IR.Expr}
    {length : Int} (left : ty.after? indices.length = some (.array length element)) :
    elementAddress base ty (indices ++ [index]) =
      .binop .add (elementAddress base ty indices)
        (.binop .mul index (.const element.storageSize)) := by
  induction indices generalizing base ty with
  | nil =>
      obtain rfl := Option.some_inj.mp (Ty.after?_zero.symm.trans left)
      rw [List.nil_append, elementAddress, elementAddress_nil, elementAddress_nil]
  | cons first rest ih =>
      cases ty with
      | array => exact ih left
      | int | log | str | void | function => cases left

section Chains

variable {context : LoweringContext} {level : Nat} {reference : Node} {ty left : Ty}
  {expression : Source.Expr} {subscripts : List Source.Expr} {definition : NodeId}
  {storage : Storage} {base : IR.Expr}

/-- Code that stands for the address of a variable with a certain storage. -/
structure Locates (context : LoweringContext) (level : Nat) (reference : Node)
    (storage : Storage) (base : IR.Expr) : Prop where
  bound : ∃ definition, context.resolution.definitionOf? reference.id = some definition ∧
    context.frames.storage? definition = some storage
  cell : cell? level storage = some (.mem base)

theorem Locates.ofExpr_name_eq_ok (locates : Locates context level reference storage base)
    {name : String} {state final : LoweringState} {code : Lowered} :
    ofExpr context level (.name reference name) state = .ok code final ↔
      code = .expr (.mem base) ∧ final = state := by
  obtain ⟨definition, refers, stored⟩ := locates.bound
  rw [Lowering.ofExpr_name_eq_ok]
  constructor
  · rintro ⟨_, _, _, refersAgain, storedAgain, cell, rfl, rfl⟩
    obtain rfl := Option.some_inj.mp (refers.symm.trans refersAgain)
    obtain rfl := Option.some_inj.mp (stored.symm.trans storedAgain)
    obtain rfl := Option.some_inj.mp (locates.cell.symm.trans cell)
    exact ⟨rfl, rfl⟩
  · rintro ⟨rfl, rfl⟩
    exact ⟨definition, storage, _, refers, stored, locates.cell, rfl, rfl⟩

/-- A subscripted variable is lowered exactly if its subscripts are, from left to right, and it
becomes the word at the address of the element. -/
theorem ofExpr_subscripted_eq_ok
    (chain : IsSubscripted context.resolution reference ty expression subscripts left)
    (locates : Locates context level reference storage base) {state final : LoweringState}
    {code : Lowered} :
    ofExpr context level expression state = .ok code final ↔
      ∃ values, ofArguments context level subscripts state = .ok values final ∧
        code = .expr (.mem (elementAddress base ty values)) := by
  induction chain generalizing code final with
  | name =>
      rw [locates.ofExpr_name_eq_ok]
      simp only [ofArguments_nil_eq_ok]
      constructor
      · rintro ⟨rfl, rfl⟩
        exact ⟨[], ⟨rfl, rfl⟩, by rw [elementAddress_nil]⟩
      · rintro ⟨_, ⟨rfl, rfl⟩, rfl⟩
        exact ⟨by rw [elementAddress_nil], rfl⟩
  | @index array subscript subscripts length element node inner typed ih =>
      rw [ofExpr_binary_eq_ok]
      simp only [ofArguments_snoc_eq_ok]
      constructor
      · rintro ⟨_, middle, index, _, _, arrayLowered, subscriptLowered, built, rfl⟩
        obtain ⟨values, valuesLowered, same⟩ := ih.mp arrayLowered
        obtain rfl := Lowered.expr.inj same
        obtain ⟨_, known, rfl, rfl⟩ := ofBinary_index_eq_ok.mp built
        obtain rfl := Option.some_inj.mp (typed.symm.trans known)
        refine ⟨_, ⟨values, middle, index, valuesLowered, subscriptLowered, rfl⟩, ?_⟩
        rw [elementAddress_snoc ((ofArguments_length valuesLowered).symm ▸ inner.after?)]
        rfl
      · rintro ⟨_, ⟨values, middle, index, valuesLowered, subscriptLowered, rfl⟩, rfl⟩
        refine ⟨_, middle, index, final, _, ih.mpr ⟨values, valuesLowered, rfl⟩, subscriptLowered,
          ofBinary_index_eq_ok.mpr ⟨element, typed, rfl, rfl⟩, ?_⟩
        rw [elementAddress_snoc ((ofArguments_length valuesLowered).symm ▸ inner.after?)]
        rfl

/-! ### Addresses in flat code -/

theorem Locates.cases (locates : Locates context level reference storage base) :
    (∃ slot, storage = .global slot ∧ base = .name slot.label) ∨
      ∃ slot, (storage = .localVar slot ∨ storage = .parameter slot) ∧ slot.level ≤ level ∧
        base = .binop .add (enclosingFrame (level - slot.level)) (.const slot.offset) := by
  have stack (slot : StackSlot) (found : stackCell? level slot = some (.mem base)) :
      slot.level ≤ level ∧
        base = .binop .add (enclosingFrame (level - slot.level)) (.const slot.offset) := by
    unfold stackCell? at found
    split at found
    · next visible =>
        exact ⟨visible, (IR.Expr.mem.inj (Option.some_inj.mp found)).symm⟩
    · cases found
  cases storage with
  | global slot =>
      exact .inl ⟨slot, rfl, (IR.Expr.mem.inj (Option.some_inj.mp locates.cell)).symm⟩
  | localVar slot => exact .inr ⟨slot, .inl rfl, stack slot locates.cell⟩
  | parameter slot => exact .inr ⟨slot, .inr rfl, stack slot locates.cell⟩

/-- The address of a variable is flat already. -/
theorem Locates.isPlain (locates : Locates context level reference storage base) :
    base.isPlain = true ∧ base.calls = [] := by
  rcases locates.cases with ⟨slot, -, rfl⟩ | ⟨slot, -, -, rfl⟩
  · exact ⟨rfl, rfl⟩
  · obtain ⟨plain, quiet⟩ := enclosingFrame_isPlain (level - slot.level)
    exact ⟨by simp [IR.Expr.isPlain, plain], by simp [IR.Expr.calls, quiet]⟩

/-- In the flat code of an address, the subscript is multiplied by the size of a step on the
spot. -/
theorem ofExpr_step_eq_ok {index : IR.Expr} {size : Int} {flat : Flattened}
    {supply rest : TempSupply}
    (flattened : Flattening.ofExpr (.binop .add base (.binop .mul index (.const size))) supply =
      .ok (flat, rest)) :
    ∃ cell middle item last before place step,
      Flattening.ofExpr base supply = .ok (cell, middle) ∧
      Flattening.ofExpr index middle = .ok (item, last) ∧
      Flattening.pair cell ⟨item.before, .binop .mul item.value (.const size)⟩ last =
        .ok ((before, place, step), rest) ∧
      flat = ⟨before, .binop .add place step⟩ := by
  obtain ⟨cell, middle, _, _, before, place, step, isCell, isStep, paired, rfl⟩ :=
    Flattening.ofExpr_binop_eq_ok.mp flattened
  obtain ⟨item, last, _, _, _, _, _, isItem, isSize, sizePaired, rfl⟩ :=
    Flattening.ofExpr_binop_eq_ok.mp isStep
  obtain ⟨rfl, rfl⟩ := Flattening.ofExpr_const_eq_ok.mp isSize
  obtain ⟨same, rfl⟩ := Flattening.append_of_nil rfl (Flattening.pair_eq_ok.mp sizePaired)
  obtain ⟨rfl, values⟩ := FlattenedOperands.mk.inj same
  obtain ⟨rfl, rfl⟩ := by simpa using values
  exact ⟨cell, middle, item, _, before, place, step, isCell, isItem, paired, rfl⟩

theorem isFixed_of_subscripted
    (chain : IsSubscripted context.resolution reference ty expression subscripts left)
    (locates : Locates context level reference storage base) {state final : LoweringState}
    {address : IR.Expr} {flat : Flattened} {supply rest : TempSupply}
    (lowered : ofExpr context level expression state = .ok (.expr (.mem address)) final)
    (flattened : Flattening.ofExpr address supply = .ok (flat, rest))
    (fixed : flat.value.isFixed = true) :
    ∃ slot, storage = .global slot ∧ flat.value = .name slot.label := by
  have computed {left right : IR.Expr} {operator : Operator}
      (isBinop : address = .binop operator left right) : flat.value.isFixed = false := by
    subst isBinop
    obtain ⟨_, _, _, _, _, _, _, -, -, -, rfl⟩ := Flattening.ofExpr_binop_eq_ok.mp flattened
    rfl
  cases chain with
  | name =>
      obtain ⟨same, -⟩ := locates.ofExpr_name_eq_ok.mp lowered
      obtain rfl := IR.Expr.mem.inj (Lowered.expr.inj same)
      rcases locates.cases with ⟨slot, isGlobal, rfl⟩ | ⟨slot, -, -, isBinop⟩
      · obtain ⟨rfl, -⟩ := Flattening.ofExpr_name_eq_ok.mp flattened
        exact ⟨slot, isGlobal, rfl⟩
      · exact absurd (fixed.symm.trans (computed isBinop)) (by simp)
  | index =>
      obtain ⟨_, _, _, _, _, -, -, built, same⟩ := ofExpr_binary_eq_ok.mp lowered
      obtain ⟨_, -, rfl, -⟩ := ofBinary_index_eq_ok.mp built
      have isBinop := IR.Expr.mem.inj (Lowered.expr.inj same)
      exact absurd (fixed.symm.trans (computed isBinop)) (by simp)

end Chains

end Lowering

end TreeBackend
