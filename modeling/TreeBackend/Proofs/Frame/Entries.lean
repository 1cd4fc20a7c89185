import TreeBackend.Proofs.Lowering.Acceptance

/-!
# The entries of a frame table

What a walk over a program enters, even if the program defines something repeatedly: then the
table keeps the last entry, but it has one for each definition.  The frames around the current
place are as many as the functions there, with levels that count them.
-/

namespace TreeBackend

open Source Outcome

/-- The level of the functions in whose frames something lies, if it is not global. -/
def Storage.level? : Storage → Option Nat
  | .global _ => none
  | .localVar slot | .parameter slot => some slot.level

/-- Something is owned in a part of a program that stands in a function of the given depth: by
that function, or by one in the part, with the given depth. -/
def Source.Contents.OwnsAt (contents : Contents) (depth : Nat) (id : NodeId) (level : Nat) : Prop :=
  (id ∈ contents.locals.map (·.node.id) ∧ level = depth) ∨
    ∃ function ∈ contents.functions, id ∈ function.ownedIds ∧ level = function.depth

theorem Source.Contents.ownsAt_append {first second : Contents} {depth level : Nat} {id : NodeId} :
    (first ++ second).OwnsAt depth id level ↔
      first.OwnsAt depth id level ∨ second.OwnsAt depth id level := by
  simp only [OwnsAt, locals_append, functions_append, List.map_append, List.mem_append,
    or_and_right, exists_or]
  exact or_or_or_comm

theorem Source.Contents.exists_ownsAt_iff {contents : Contents} {depth : Nat} {id : NodeId} :
    (∃ level, contents.OwnsAt depth id level) ↔ id ∈ contents.ownedIds := by
  rw [Contents.ownedIds, List.mem_append, List.mem_flatMap]
  constructor
  · rintro ⟨level, ⟨isLocal, -⟩ | ⟨function, member, isOwned, -⟩⟩
    · exact .inl isLocal
    · exact .inr ⟨function, member, isOwned⟩
  · rintro (isLocal | ⟨function, member, isOwned⟩)
    · exact ⟨depth, .inl ⟨isLocal, rfl⟩⟩
    · exact ⟨_, .inr ⟨function, member, isOwned, rfl⟩⟩

/-- A table has gained entries for some functions, and for variables and parameters at some
levels; those that it had before are still there, if perhaps with other values. -/
structure FrameTable.Gains (isFunction : NodeId → Prop) (owns : NodeId → Nat → Prop)
    (table final : FrameTable) : Prop where
  frames : ∀ id, isFunction id ∨ (table.frame? id).isSome = true → (final.frame? id).isSome = true
  storages : ∀ id, (∃ level, owns id level) ∨ (table.storage? id).isSome = true →
    (final.storage? id).isSome = true
  levels : ∀ id storage level, final.storage? id = some storage → storage.level? = some level →
    owns id level ∨ table.storage? id = some storage

namespace FrameTable.Gains

variable {isFunction isOther : NodeId → Prop} {owns ownsOther : NodeId → Nat → Prop}
  {table middle final : FrameTable}

theorem refl (noFunction : ∀ id, ¬isFunction id) (none : ∀ id level, ¬owns id level) :
    Gains isFunction owns table table where
  frames id found := found.resolve_left (noFunction id)
  storages id found := found.resolve_left fun ⟨level, isOwned⟩ => none id level isOwned
  levels _ _ _ found _ := .inr found

theorem trans (left : Gains isFunction owns table middle)
    (right : Gains isOther ownsOther middle final) :
    Gains (fun id => isFunction id ∨ isOther id)
      (fun id level => owns id level ∨ ownsOther id level) table final where
  frames id := by
    rintro ((inLeft | inRight) | found)
    · exact right.frames id (.inr (left.frames id (.inl inLeft)))
    · exact right.frames id (.inl inRight)
    · exact right.frames id (.inr (left.frames id (.inr found)))
  storages id := by
    rintro (⟨level, inLeft | inRight⟩ | found)
    · exact right.storages id (.inr (left.storages id (.inl ⟨level, inLeft⟩)))
    · exact right.storages id (.inl ⟨level, inRight⟩)
    · exact right.storages id (.inr (left.storages id (.inr found)))
  levels id storage level found lies := by
    rcases right.levels id storage level found lies with inRight | found
    · exact .inl (.inr inRight)
    · exact (left.levels id storage level found lies).imp_left .inl

theorem congr (gains : Gains isFunction owns table final)
    (functions : ∀ id, isOther id ↔ isFunction id)
    (owned : ∀ id level, ownsOther id level ↔ owns id level) :
    Gains isOther ownsOther table final := by
  obtain rfl : isOther = isFunction := funext fun id => propext (functions id)
  obtain rfl : ownsOther = owns := funext fun id => funext fun level => propext (owned id level)
  exact gains

theorem addFrame (id : NodeId) (frame : Frame) :
    Gains (· = id) (fun _ _ => False) table (table.addFrame id frame) where
  frames other := by
    rintro (rfl | found)
    · simp
    · rw [frame?_addFrame]
      split
      · rfl
      · exact found
  storages _ found := found.resolve_left fun ⟨_, impossible⟩ => impossible
  levels _ _ _ found _ := .inr found

theorem addStorage (id : NodeId) (storage : Storage) (depth : Nat)
    (lies : ∀ level, storage.level? = some level → level = depth) :
    Gains (fun _ => False) (fun other level => other = id ∧ level = depth) table
      (table.addStorage id storage) where
  frames _ found := found.resolve_left not_false
  storages other := by
    rintro (⟨_, rfl, -⟩ | found)
    · simp
    · rw [storage?_addStorage]
      split
      · rfl
      · exact found
  levels other stored level found isLevel := by
    rw [storage?_addStorage] at found
    split at found
    · next same =>
        obtain rfl := Option.some.inj found
        exact .inl ⟨same.symm, lies level isLevel⟩
    · exact .inr found

end FrameTable.Gains

namespace Layout

/-- The frames around a place belong to functions that lie in each other. -/
def AreNested : List Frame → Prop
  | [] => True
  | frame :: outer => frame.level = outer.length + 1 ∧ AreNested outer

/-- A walk has entered what a part of a program contains, whether it defines anything repeatedly
or not. -/
structure EntersAll (contents : Contents) (before after : LayoutState) : Prop where
  gains : FrameTable.Gains (· ∈ contents.functions.map (·.node.id))
    (contents.OwnsAt before.growing.length) before.table after.table
  length : after.growing.length = before.growing.length
  nested : AreNested after.growing

/-- A walk enters all that a part of a program contains. -/
structure WalksAll (contents : Contents) (depth : Nat) (walk : Layout Unit) : Prop where
  enters : ∀ {before after : LayoutState}, before.growing.length = depth →
    AreNested before.growing → walk before = .ok () after → EntersAll contents before after

namespace WalksAll

variable {resolution : Resolution} {depth : Nat}

theorem nil : WalksAll {} depth (pure ()) := by
  refine ⟨fun _ nested succeeds => ?_⟩
  obtain ⟨-, rfl⟩ := pure_eq_ok.mp succeeds
  exact ⟨.refl (by simp) (by simp [Contents.OwnsAt]), rfl, nested⟩

theorem append {first second : Contents} {walk next : Layout Unit}
    (left : WalksAll first depth walk) (right : WalksAll second depth next) :
    WalksAll (first ++ second) depth (do walk; next) := by
  refine ⟨fun deep nested succeeds => ?_⟩
  obtain ⟨⟨⟩, middle, succeeds, nextSucceeds⟩ := bind_eq_ok.mp succeeds
  have entersFirst := left.enters deep nested succeeds
  have entersSecond := right.enters (entersFirst.length.trans deep) entersFirst.nested nextSucceeds
  refine ⟨(entersFirst.gains.trans entersSecond.gains).congr (fun id => ?_) fun id level => ?_,
    entersSecond.length.trans entersFirst.length, entersSecond.nested⟩
  · rw [Contents.functions_append, List.map_append, List.mem_append]
  · rw [Contents.ownsAt_append, entersFirst.length]

theorem call (node : Node) (name : String) (arguments : Nat) :
    WalksAll { calls := [arguments] } depth (placeCall node name arguments) := by
  refine ⟨fun {before after} _ nested succeeds => ?_⟩
  obtain ⟨labels, table, growing⟩ := before
  cases growing with
  | nil => cases succeeds
  | cons frame outer =>
      obtain rfl := (EStateM.Result.ok.inj succeeds).2
      exact ⟨.refl (by simp) (by simp [Contents.OwnsAt]), rfl, nested⟩

theorem localVariable (node : Node) (name : String) :
    WalksAll { locals := [⟨node, name⟩] } depth (placeVariable resolution node name) := by
  refine ⟨fun {before after} _ nested succeeds => ?_⟩
  obtain ⟨labels, table, growing⟩ := before
  have owned (id : NodeId) (level : Nat) :
      ({ locals := [⟨node, name⟩] } : Contents).OwnsAt growing.length id level ↔
        id = node.id ∧ level = growing.length := by
    simp [Contents.OwnsAt]
  cases known : resolution.typeOf? node.id with
  | none => simp [placeVariable, known] at succeeds
  | some ty =>
      cases growing with
      | nil =>
          obtain rfl : _ = after := by simpa [placeVariable, known] using succeeds
          exact ⟨(FrameTable.Gains.addStorage node.id _ 0 (fun level lies => by cases lies)).congr
            (by simp) owned, rfl, nested⟩
      | cons frame outer =>
          obtain rfl : _ = after := by simpa [placeVariable, known] using succeeds
          refine ⟨(FrameTable.Gains.addStorage node.id _ (outer.length + 1)
            fun level lies => ?_).congr (by simp) owned, rfl, nested⟩
          exact (Option.some.inj lies).symm.trans nested.1

end WalksAll

/-! ### Functions -/

theorem enterFunction_nested {name : String} {before after : LayoutState}
    (nested : AreNested before.growing) (succeeds : enterFunction name before = .ok () after) :
    after.table = before.table ∧ after.growing.length = before.growing.length + 1 ∧
      AreNested after.growing := by
  obtain ⟨labels, table, growing⟩ := before
  obtain ⟨label, middle, rfl, -⟩ := enterFunction_eq_ok succeeds
  exact ⟨rfl, rfl, rfl, nested⟩

theorem placeParameters_gains {resolution : Resolution} {parameters : List Parameter}
    {before after : LayoutState} (nested : AreNested before.growing)
    (succeeds : parameters.forM (placeParameter resolution) before = .ok () after) :
    FrameTable.Gains (fun _ => False)
        (fun id level => id ∈ parameters.map (·.node.id) ∧ level = before.growing.length)
        before.table after.table ∧
      after.growing.length = before.growing.length ∧ AreNested after.growing := by
  induction parameters generalizing before with
  | nil =>
      obtain ⟨-, rfl⟩ := pure_eq_ok.mp succeeds
      exact ⟨.refl (by simp) (by simp), rfl, nested⟩
  | cons parameter rest ih =>
      obtain ⟨⟨⟩, middle, first, others⟩ := bind_eq_ok.mp succeeds
      obtain ⟨labels, table, growing⟩ := before
      cases growing with
      | nil =>
          cases known : resolution.typeOf? parameter.node.id <;>
            simp [placeParameter, known] at first
      | cons frame outer =>
          obtain ⟨-, rfl⟩ := placeParameter_eq_ok first
          have grownNested :
              AreNested (frame.withParameters resolution [parameter] :: outer) := nested
          obtain ⟨gains, length, stillNested⟩ := ih grownNested others
          refine ⟨((FrameTable.Gains.addStorage parameter.node.id _ (outer.length + 1)
            fun level lies => ?_).trans gains).congr (by simp) fun id level => ?_, length,
            stillNested⟩
          · exact (Option.some.inj lies).symm.trans nested.1
          · simp [or_and_right]

theorem leaveFunction_gains {node : Node} {name : String} {before after : LayoutState}
    (nested : AreNested before.growing) (succeeds : leaveFunction node name before = .ok () after) :
    FrameTable.Gains (· = node.id) (fun _ _ => False) before.table after.table ∧
      before.growing.length = after.growing.length + 1 ∧ AreNested after.growing := by
  obtain ⟨labels, table, growing⟩ := before
  cases growing with
  | nil => cases succeeds
  | cons frame outer =>
      obtain rfl := (EStateM.Result.ok.inj succeeds).2
      exact ⟨.addFrame node.id frame, rfl, nested.2⟩

theorem WalksAll.function {resolution : Resolution} {node : Node} {name : String}
    {parameters : List Parameter} {body : Expr} {around : List NodeId}
    (walks : WalksAll (body.contents (node.id :: around)) (around.length + 1)
      (ofExpr resolution body)) :
    WalksAll (.ofFunction ⟨node, name, parameters, body, around⟩) around.length
      (ofDef resolution (.function node name parameters body)) := by
  refine ⟨fun {before after} deep nested succeeds => ?_⟩
  simp only [ofDef] at succeeds
  obtain ⟨⟨⟩, entered, starts, afterStart⟩ := bind_eq_ok.mp succeeds
  obtain ⟨⟨⟩, placed, places, afterPlaces⟩ := bind_eq_ok.mp afterStart
  obtain ⟨⟨⟩, walked, inside, leaves⟩ := bind_eq_ok.mp afterPlaces
  obtain ⟨sameTable, enteredLength, enteredNested⟩ := enterFunction_nested nested starts
  obtain ⟨placing, placedLength, placedNested⟩ := placeParameters_gains enteredNested places
  have enters := walks.enters (by rw [placedLength, enteredLength, deep]) placedNested inside
  obtain ⟨leaving, leftLength, leftNested⟩ := leaveFunction_gains enters.nested leaves
  have length : walked.growing.length = before.growing.length + 1 := by
    rw [enters.length, placedLength, enteredLength]
  refine ⟨?_, by omega, leftNested⟩
  rw [← sameTable]
  refine ((placing.trans enters.gains).trans leaving).congr (fun id => ?_) fun id level => ?_
  · simp [Contents.ofFunction, Function.contents, or_comm]
  · rw [enteredLength, placedLength, enteredLength, deep]
    simp only [Contents.OwnsAt, Contents.ofFunction, Function.contents, Function.ownedIds,
      Function.depth, List.map_nil, List.not_mem_nil, false_and, false_or, or_false,
      List.exists_mem_cons_iff, List.mem_append, or_and_right, or_assoc]

section Trees

variable {resolution : Resolution}

mutual

theorem walksAll_ofExpr : (expression : Expr) → (around : List NodeId) →
    WalksAll (expression.contents around) around.length (ofExpr resolution expression)
  | .literal .., _ | .name .., _ => .nil
  | .unary _ _ operand, around => walksAll_ofExpr operand around
  | .binary _ _ left right, around =>
      (walksAll_ofExpr left around).append (walksAll_ofExpr right around)
  | .call node name arguments, around =>
      (WalksAll.call node name arguments.length).append (walksAll_ofExprs arguments around)
  | .block _ items, around => walksAll_ofExprs items around
  | .ifThen _ condition thenBranch, around =>
      (walksAll_ofExpr condition around).append (walksAll_ofExpr thenBranch around)
  | .ifThenElse _ condition thenBranch elseBranch, around => by
      have walks := (walksAll_ofExpr condition around).append
        ((walksAll_ofExpr thenBranch around).append (walksAll_ofExpr elseBranch around))
      rwa [← Contents.append_assoc] at walks
  | .whileLoop _ condition body, around =>
      (walksAll_ofExpr condition around).append (walksAll_ofExpr body around)
  | .forLoop _ counter low high step body, around => by
      have walks := (walksAll_ofExpr counter around).append
        ((walksAll_ofExpr low around).append ((walksAll_ofExpr high around).append
          ((walksAll_ofExpr step around).append (walksAll_ofExpr body around))))
      rwa [← Contents.append_assoc, ← Contents.append_assoc, ← Contents.append_assoc] at walks
  | .whereIn _ definitions inner, around =>
      (walksAll_ofDefs definitions around).append (walksAll_ofExpr inner around)

theorem walksAll_ofExprs : (expressions : List Expr) → (around : List NodeId) →
    WalksAll (Expr.contentsOfList around expressions) around.length
      (ofExprs resolution expressions)
  | [], _ => .nil
  | expression :: rest, around =>
      (walksAll_ofExpr expression around).append (walksAll_ofExprs rest around)

theorem walksAll_ofDef : (definition : Def) → (around : List NodeId) →
    WalksAll (definition.contents around) around.length (ofDef resolution definition)
  | .function node _ _ body, around => .function (walksAll_ofExpr body (node.id :: around))
  | .var node name, _ => .localVariable node name
  | .typeAlias .., _ => .nil

theorem walksAll_ofDefs : (definitions : List Def) → (around : List NodeId) →
    WalksAll (Def.contentsOfList around definitions) around.length
      (ofDefs resolution definitions)
  | [], _ => .nil
  | definition :: rest, around =>
      (walksAll_ofDef definition around).append (walksAll_ofDefs rest around)

end

end Trees

end Layout

/-- A table has entries for all that a program defines, and what lies in a frame lies in one of a
function that owns it. -/
structure Source.Program.EnteredIn (program : Program) (table : FrameTable) : Prop where
  covers : Lowering.Covers table program.contents
  levels : ∀ id storage level, table.storage? id = some storage → storage.level? = some level →
    program.contents.OwnsAt 0 id level

/-- If a program can be laid out, then the table has entries for all that it defines, whether it
defines anything repeatedly or not. -/
theorem Layout.ofProgram_enters {program : Program} {table : FrameTable}
    {supply labels : LabelSupply}
    (succeeds : Layout.ofProgram program supply = .ok (table, labels)) :
    program.EnteredIn table := by
  unfold Layout.ofProgram at succeeds
  split at succeeds
  · next final walked =>
      obtain ⟨rfl, rfl⟩ := Prod.mk.inj (Except.ok.inj succeeds)
      obtain ⟨gains, -, -⟩ :=
        (walksAll_ofDefs program.definitions []).enters (by rfl) (by trivial) walked
      refine ⟨⟨fun function member => ?_, fun id isOwned => ?_⟩,
        fun id storage level found lies => ?_⟩
      · exact gains.frames _ (.inl (List.mem_map.mpr ⟨function, member, rfl⟩))
      · exact gains.storages id (.inl (Contents.exists_ownsAt_iff.mpr isOwned))
      · exact (gains.levels id storage level found lies).resolve_right fun old => by cases old
  · cases succeeds

end TreeBackend
