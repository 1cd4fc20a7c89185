import TreeBackend.Frame.Layout
import TreeBackend.Proofs.Frame.Description
import TreeBackend.Proofs.Outcome

/-!
# What a walk enters into the frame table

A walk over a part of a program succeeds exactly if the variables and parameters
in it have types.  It then lets the innermost frame grow by what the part brings
into it, and enters a description of all functions within.
-/

namespace TreeBackend.Layout

open Source Outcome

/-- The variables and parameters of a part of a program have types. -/
def Typed (resolution : Resolution) (contents : Contents) : Prop :=
  ∀ id ∈ contents.ownedIds, (resolution.typeOf? id).isSome = true

def IsMissingType (problem : CompileError) : Prop :=
  ∃ what span, problem = .located (.missingType what) span

/-- A walk has entered what a part of a program contains, and nothing else. -/
structure Enters (resolution : Resolution) (contents : Contents) (labels : LabelSupply)
    (table : FrameTable) (final : LayoutState) : Prop where
  typed : Typed resolution contents
  supply : labels.issued ≤ final.labels.issued
  frames : ∀ id ∉ contents.functions.map (·.node.id),
    final.table.frame? id = table.frame? id
  storages : ∀ id ∉ contents.ownedIds, final.table.storage? id = table.storage? id
  functions : contents.ids.Nodup →
    FunctionsLaidOut resolution final.table labels final.labels contents.functions

/-- A walk over a part of a function of the given depth. -/
structure Walks (resolution : Resolution) (depth : Nat) (contents : Contents)
    (walk : Layout Unit) : Prop where
  succeeds : ∀ {labels : LabelSupply} {table : FrameTable} {frame : Frame} {outer : List Frame}
    {final : LayoutState}, frame.level = depth → outer.length + 1 = depth →
    walk ⟨labels, table, frame :: outer⟩ = .ok () final →
      Enters resolution contents labels table final ∧
      final.growing = frame.withContents resolution contents :: outer ∧
      (contents.ids.Nodup →
        LocalsPlaced resolution final.table depth frame.localsSize contents.locals)
  fails : ∀ {labels : LabelSupply} {table : FrameTable} {frame : Frame} {outer : List Frame}
    {problem : CompileError} {final : LayoutState},
    frame.level = depth → outer.length + 1 = depth →
    walk ⟨labels, table, frame :: outer⟩ = .error problem final →
      IsMissingType problem ∧ ¬Typed resolution contents

section Parts

variable {resolution : Resolution} {first second contents : Contents} {labels : LabelSupply}
  {table : FrameTable} {middle final : LayoutState}

theorem typed_append :
    Typed resolution (first ++ second) ↔ Typed resolution first ∧ Typed resolution second := by
  simp only [Typed, Contents.mem_ownedIds_append, or_imp, forall_and]

theorem ownedIds_subset_ids : contents.ownedIds ⊆ contents.ids := by
  intro id isOwned
  rcases List.mem_append.mp isOwned with isLocal | isInner
  · exact List.mem_append_left _ isLocal
  · obtain ⟨function, member, isOwn⟩ := List.mem_flatMap.mp isInner
    exact Contents.ids_of_mem_functions member (List.mem_cons_of_mem _ isOwn)

theorem functionIds_subset_ids : contents.functions.map (·.node.id) ⊆ contents.ids := by
  intro id isFunction
  obtain ⟨function, member, rfl⟩ := List.mem_map.mp isFunction
  exact Contents.ids_of_mem_functions member (List.mem_cons_self ..)

/-- What one part has entered is not touched by a part that defines other things. -/
theorem Enters.keeps (enters : Enters resolution second labels table final)
    (disjoint : first.ids.Disjoint second.ids) :
    (∀ function ∈ first.functions,
      final.table.frame? function.node.id = table.frame? function.node.id) ∧
    ∀ id ∈ first.ownedIds, final.table.storage? id = table.storage? id := by
  constructor
  · intro function member
    apply enters.frames
    intro isFunction
    exact disjoint (Contents.ids_of_mem_functions member (List.mem_cons_self ..))
      (functionIds_subset_ids isFunction)
  · intro id isOwned
    exact enters.storages id fun isOther =>
      disjoint (ownedIds_subset_ids isOwned) (ownedIds_subset_ids isOther)

theorem Enters.append (left : Enters resolution first labels table middle)
    (right : Enters resolution second middle.labels middle.table final) :
    Enters resolution (first ++ second) labels table final where
  typed := typed_append.mpr ⟨left.typed, right.typed⟩
  supply := left.supply.trans right.supply
  frames id notFunction := by
    simp only [Contents.functions_append, List.map_append, List.mem_append, not_or] at notFunction
    exact (right.frames id notFunction.2).trans (left.frames id notFunction.1)
  storages id notOwned := by
    rw [Contents.mem_ownedIds_append, not_or] at notOwned
    exact (right.storages id notOwned.2).trans (left.storages id notOwned.1)
  functions nodup := by
    obtain ⟨leftNodup, rightNodup, disjoint⟩ := Contents.nodup_ids_append.mp nodup
    have kept := right.keeps disjoint
    refine .append ((left.functions leftNodup).congr (Nat.le_refl _) (Nat.le_refl _) kept.1 ?_)
      (right.functions rightNodup) left.supply right.supply
    intro function member id isOwned
    exact kept.2 id (List.mem_append_right _ (List.mem_flatMap.mpr ⟨function, member, isOwned⟩))

end Parts

namespace Walks

variable {resolution : Resolution} {depth : Nat}

theorem nil : Walks resolution depth {} (pure ()) where
  succeeds _ _ succeeds := by
    obtain ⟨-, rfl⟩ := pure_eq_ok.mp succeeds
    refine ⟨⟨fun id member => by simp [Contents.ownedIds] at member, Nat.le_refl _,
      fun _ _ => rfl, fun _ _ => rfl, fun _ => ⟨by simp, .nil⟩⟩, ?_, fun _ => trivial⟩
    simp [Frame.withContents]
  fails _ _ fails := (pure_ne_error fails).elim

/-- Two parts are walked over one after the other. -/
theorem append {first second : Contents} {walk next : Layout Unit}
    (left : Walks resolution depth first walk) (right : Walks resolution depth second next) :
    Walks resolution depth (first ++ second) (do walk; next) where
  succeeds level deep succeeds := by
    obtain ⟨⟨⟩, ⟨labels, table, growing⟩, succeeds, nextSucceeds⟩ := bind_eq_ok.mp succeeds
    obtain ⟨entersFirst, rfl, firstPlaced⟩ := left.succeeds level deep succeeds
    have grownLevel := (Frame.level_withContents resolution first _).trans level
    obtain ⟨entersSecond, grown, secondPlaced⟩ := right.succeeds grownLevel deep nextSucceeds
    refine ⟨entersFirst.append entersSecond, ?_, fun nodup => ?_⟩
    · rw [Frame.withContents_append, grown]
    · obtain ⟨leftNodup, rightNodup, disjoint⟩ := Contents.nodup_ids_append.mp nodup
      refine .append ((firstPlaced leftNodup).congr fun owned member => ?_)
        (secondPlaced rightNodup)
      exact (entersSecond.keeps disjoint).2 _
        (List.mem_append_left _ (List.mem_map.mpr ⟨owned, member, rfl⟩))
  fails level deep fails := by
    rcases bind_eq_error.mp fails with fails | ⟨⟨⟩, ⟨labels, table, growing⟩, succeeds, fails⟩
    · obtain ⟨missing, untyped⟩ := left.fails level deep fails
      exact ⟨missing, fun typed => untyped (typed_append.mp typed).1⟩
    · obtain ⟨_, rfl, _⟩ := left.succeeds level deep succeeds
      have grownLevel := (Frame.level_withContents resolution first _).trans level
      obtain ⟨missing, untyped⟩ := right.fails grownLevel deep fails
      exact ⟨missing, fun typed => untyped (typed_append.mp typed).2⟩

theorem call (node : Node) (name : String) (arguments : Nat) :
    Walks resolution depth { calls := [arguments] } (placeCall node name arguments) where
  succeeds _ _ succeeds := by
    obtain rfl := (EStateM.Result.ok.inj succeeds).2
    refine ⟨⟨fun id member => by simp [Contents.ownedIds] at member, Nat.le_refl _,
      fun _ _ => rfl, fun _ _ => rfl, fun _ => ⟨by simp, .nil⟩⟩, ?_, fun _ => trivial⟩
    simp [Frame.withContents, Frame.reserveCall, callSize]
  fails _ _ fails := by cases fails

theorem localVariable (node : Node) (name : String) :
    Walks resolution depth { locals := [⟨node, name⟩] } (placeVariable resolution node name) where
  succeeds {labels table frame outer final} level _ succeeds := by
    cases known : resolution.typeOf? node.id with
    | none => simp [placeVariable, known] at succeeds
    | some ty =>
        obtain rfl : _ = final := by simpa [placeVariable, known] using succeeds
        refine ⟨⟨fun id member => ?_, Nat.le_refl _, fun _ _ => rfl, fun id other => ?_,
          fun _ => ⟨by simp, .nil⟩⟩, ?_, fun _ => ⟨?_, trivial⟩⟩
        · obtain rfl : id = node.id := by simpa [Contents.ownedIds] using member
          simp [known]
        · have different : node.id ≠ id := by simpa [Contents.ownedIds, eq_comm] using other
          simp [different]
        · simp [Frame.withContents, Frame.reserveLocal, Resolution.storageSize, known]
        · simp [Frame.reserveLocal, Resolution.storageSize, known, level]
  fails {labels table frame outer problem final} _ _ fails := by
    cases known : resolution.typeOf? node.id with
    | none =>
        obtain ⟨rfl, -⟩ : _ = problem ∧ _ = final := by simpa [placeVariable, known] using fails
        refine ⟨⟨_, _, rfl⟩, fun typed => ?_⟩
        simpa [known] using typed node.id (by simp [Contents.ownedIds])
    | some ty => simp [placeVariable, known] at fails

end Walks

/-! ### Functions -/

section Functions

variable {resolution : Resolution} {labels : LabelSupply} {table : FrameTable} {frame : Frame}
  {outer : List Frame} {final : LayoutState}

theorem enterFunction_eq_ok {name : String} (succeeds :
    enterFunction name ⟨labels, table, outer⟩ = .ok () final) :
    ∃ label middle, final = ⟨middle, table, Frame.initial label (outer.length + 1) :: outer⟩ ∧
      labels.issued ≤ middle.issued ∧ (outer = [] → label = .named name) ∧
      (outer ≠ [] → ∃ number, labels.issued ≤ number ∧ number < middle.issued ∧
        label = .anonymous number) := by
  cases outer with
  | nil =>
      obtain rfl := (EStateM.Result.ok.inj succeeds).2
      exact ⟨_, labels, rfl, Nat.le_refl _, fun _ => rfl, fun nested => (nested rfl).elim⟩
  | cons _ _ =>
      obtain rfl := (EStateM.Result.ok.inj succeeds).2
      exact ⟨_, labels.rest, rfl, Nat.le_succ _, fun outermost => by simp at outermost,
        fun _ => ⟨labels.issued, Nat.le_refl _, Nat.lt_succ_self _, rfl⟩⟩

theorem placeParameter_eq_ok {parameter : Parameter} (succeeds :
    placeParameter resolution parameter ⟨labels, table, frame :: outer⟩ = .ok () final) :
    (resolution.typeOf? parameter.node.id).isSome = true ∧
      final = ⟨labels,
        table.addStorage parameter.node.id (.parameter
          ⟨resolution.parameterSize parameter.node.id, frame.parametersSize, frame.level⟩),
        frame.withParameters resolution [parameter] :: outer⟩ := by
  cases known : resolution.typeOf? parameter.node.id with
  | none => simp [placeParameter, known] at succeeds
  | some ty =>
      obtain rfl : _ = final := by simpa [placeParameter, known] using succeeds
      simp [Frame.withParameters, Frame.reserveParameter, Resolution.parameterSize, known]

theorem placeParameters_eq_ok {parameters : List Parameter} (succeeds :
    parameters.forM (placeParameter resolution) ⟨labels, table, frame :: outer⟩ = .ok () final) :
    (∀ parameter ∈ parameters, (resolution.typeOf? parameter.node.id).isSome = true) ∧
      final.labels = labels ∧ final.growing = frame.withParameters resolution parameters :: outer ∧
      (∀ id, final.table.frame? id = table.frame? id) ∧
      (∀ id ∉ parameters.map (·.node.id), final.table.storage? id = table.storage? id) ∧
      ((parameters.map (·.node.id)).Nodup → ParametersPlaced resolution final.table frame.level
        frame.parametersSize parameters) := by
  induction parameters generalizing table frame with
  | nil =>
      obtain ⟨-, rfl⟩ := pure_eq_ok.mp succeeds
      refine ⟨by simp, rfl, ?_, fun _ => rfl, fun _ _ => rfl, fun _ => trivial⟩
      simp [Frame.withParameters]
  | cons parameter rest ih =>
      obtain ⟨⟨⟩, middle, first, others⟩ := bind_eq_ok.mp succeeds
      obtain ⟨known, rfl⟩ := placeParameter_eq_ok first
      obtain ⟨typed, sameLabels, grown, frames, storages, placed⟩ := ih others
      refine ⟨?_, sameLabels, ?_, frames, ?_, ?_⟩
      · simpa [known] using typed
      · simp [grown, Frame.withParameters, Int.add_assoc]
      · intro id notParameter
        rw [List.map_cons, List.mem_cons, not_or] at notParameter
        rw [storages id notParameter.2, FrameTable.storage?_addStorage, if_neg]
        exact fun same => notParameter.1 same.symm
      · intro nodup
        rw [List.map_cons, List.nodup_cons] at nodup
        refine ⟨?_, ?_⟩
        · rw [storages _ nodup.1, FrameTable.storage?_addStorage, if_pos rfl]
        · simpa [Frame.withParameters] using placed nodup.2

theorem placeParameters_eq_error {parameters : List Parameter} {problem : CompileError}
    (fails : parameters.forM (placeParameter resolution) ⟨labels, table, frame :: outer⟩ =
      .error problem final) :
    IsMissingType problem ∧
      ∃ parameter ∈ parameters, resolution.typeOf? parameter.node.id = none := by
  induction parameters generalizing table frame with
  | nil => exact (pure_ne_error fails).elim
  | cons parameter rest ih =>
      rcases bind_eq_error.mp fails with fails | ⟨⟨⟩, middle, first, fails⟩
      · cases known : resolution.typeOf? parameter.node.id with
        | none =>
            obtain ⟨rfl, -⟩ : _ = problem ∧ _ = final := by simpa [placeParameter, known] using fails
            exact ⟨⟨_, _, rfl⟩, parameter, by simp, known⟩
        | some ty => simp [placeParameter, known] at fails
      · obtain ⟨-, rfl⟩ := placeParameter_eq_ok first
        obtain ⟨missing, other, member, untyped⟩ := ih fails
        exact ⟨missing, other, List.mem_cons_of_mem _ member, untyped⟩

end Functions

end TreeBackend.Layout
