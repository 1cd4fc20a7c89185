import TreeBackend.Proofs.Lowering.Acceptance
import TreeBackend.Proofs.Lowering.ChunkLabels

/-!
# What the table of a program lists

A program that can be laid out has a frame for each of its functions and storage for each of
its variables and parameters, and for nothing else.  The levels there say how deep the
functions are nested to which the frames and the stack slots belong.
-/

namespace TreeBackend

open Source

/-- A table lists the functions, the variables and the parameters of a program, with levels
that say how deep the functions are nested to which they belong. -/
structure Source.Program.ListedIn (program : Program) (table : FrameTable) : Prop where
  frames : ∀ id, (table.frame? id).isSome = true ↔
    ∃ function ∈ program.functions, function.node.id = id
  storages : ∀ id, (table.storage? id).isSome = true ↔
    (∃ owned ∈ program.globals, owned.node.id = id) ∨
      ∃ function ∈ program.functions, id ∈ function.ownedIds
  levels : ∀ function ∈ program.functions, ∀ frame, table.frame? function.node.id = some frame →
    frame.level = function.depth
  outermost : ∀ function ∈ program.functions, function.depth = 1 →
    ∀ frame, table.frame? function.node.id = some frame → frame.label = .named function.name
  nested : ∀ function ∈ program.functions, function.depth ≠ 1 →
    ∀ frame, table.frame? function.node.id = some frame →
      (∃ number, frame.label = .anonymous number) ∧
        ∀ id other, id ≠ function.node.id → table.frame? id = some other →
          other.label ≠ frame.label
  globals : ∀ owned ∈ program.globals, ∃ slot,
    table.storage? owned.node.id = some (.global slot) ∧ slot.label = .named owned.name
  locals : ∀ function ∈ program.functions, ∀ owned ∈ function.contents.locals, ∃ slot,
    table.storage? owned.node.id = some (.localVar slot) ∧ slot.level = function.depth
  parameters : ∀ function ∈ program.functions, ∀ parameter ∈ function.parameters, ∃ slot,
    table.storage? parameter.node.id = some (.parameter slot) ∧ slot.level = function.depth

section LaidOut

variable {program : Program} {table : FrameTable} {labels : LabelSupply}
  {function other : Function} {frame otherFrame : Frame}

theorem level_of_frame? (laid : program.LaidOut table labels)
    (member : function ∈ program.functions)
    (found : table.frame? function.node.id = some frame) : frame.level = function.depth := by
  obtain ⟨label, -, isFrame⟩ := (laid.functions.each function member).frame
  obtain rfl := Option.some_inj.mp (found.symm.trans isFrame)
  rfl

theorem label_ne_of_nested (laid : program.LaidOut table labels)
    (member : function ∈ program.functions) (otherMember : other ∈ program.functions)
    (differ : other ≠ function) (nested : function.around ≠ [])
    (found : table.frame? function.node.id = some frame)
    (otherFound : table.frame? other.node.id = some otherFrame) :
    otherFrame.label ≠ frame.label := by
  obtain ⟨label, labelled, isFrame⟩ := (laid.functions.each function member).frame
  obtain ⟨otherLabel, otherLabelled, isOther⟩ := (laid.functions.each other otherMember).frame
  by_cases outermost : other.around = []
  · obtain rfl := Option.some_inj.mp (found.symm.trans isFrame)
    obtain rfl := Option.some_inj.mp (otherFound.symm.trans isOther)
    obtain ⟨number, -, rfl⟩ := labelled.eq_anonymous nested
    obtain rfl := otherLabelled.eq_named outermost
    intro same
    cases same
  · have symmetric : Std.Symm (LabelledApart table) :=
      ⟨fun _ _ apart nested otherNested frame other found otherFound =>
        (apart otherNested nested other frame otherFound found).symm⟩
    exact laid.functions.apart.forall otherMember member differ outermost nested _ _ otherFound found

theorem listedIn_of_laidOut (laid : program.LaidOut table labels) : program.ListedIn table where
  frames id := by
    rw [laid.frames, ← program.map_functions, List.mem_map]
  storages id := by
    have owned : id ∈ program.contents.ownedIds ↔ (∃ owned ∈ program.globals, owned.node.id = id) ∨
        ∃ function ∈ program.functions, id ∈ function.ownedIds := by
      rw [Contents.ownedIds, List.mem_append, List.mem_map, List.mem_flatMap]
    rw [← owned]
    exact ⟨laid.storages id, (Lowering.covers_contents laid).storages id⟩
  levels function member frame found := level_of_frame? laid member found
  outermost function member depth frame found := by
    obtain ⟨label, labelled, isFrame⟩ := (laid.functions.each function member).frame
    obtain rfl := Option.some_inj.mp (found.symm.trans isFrame)
    exact labelled.eq_named (List.length_eq_zero_iff.mp (Nat.succ.inj depth))
  nested function member depth frame found := by
    have nested : function.around ≠ [] := fun outermost => depth (by simp [Function.depth, outermost])
    constructor
    · obtain ⟨label, labelled, isFrame⟩ := (laid.functions.each function member).frame
      obtain rfl := Option.some_inj.mp (found.symm.trans isFrame)
      obtain ⟨number, -, same⟩ := labelled.eq_anonymous nested
      exact ⟨number, same⟩
    · intro id other differ otherFound
      have isFunction := (laid.frames id).mp (by rw [otherFound]; rfl)
      rw [← program.map_functions] at isFunction
      obtain ⟨callee, isThere, rfl⟩ := List.mem_map.mp isFunction
      exact label_ne_of_nested laid member isThere (fun same => differ (by rw [same])) nested found
        otherFound
  globals owned member := ⟨_, laid.globals owned member, rfl⟩
  locals function member owned isLocal :=
    (laid.functions.each function member).locals.storage isLocal
  parameters function member parameter isParameter :=
    (laid.functions.each function member).parameters.storage isParameter

end LaidOut

end TreeBackend
