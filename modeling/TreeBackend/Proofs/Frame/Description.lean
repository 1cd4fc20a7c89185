import Mathlib.Algebra.Ring.Int.Defs
import Mathlib.Data.List.Pairwise
import Mathlib.Order.Nat
import TreeBackend.Frame.Storage
import TreeBackend.Proofs.Source.Contents
import TreeBackend.Proofs.Source.Extents

/-!
# What a frame table says about a program

The frame of a function is determined by its label and by what the function
contains: parameters lie above the frame pointer in their order, locals below it
in theirs, and the largest call gives the room for arguments.  This file says
when a table describes functions in this way.
-/

namespace TreeBackend

open Source

/-- The bytes of the storage of a variable, or none if it has no type. -/
def Source.Resolution.storageSize (resolution : Resolution) (definition : NodeId) : Int :=
  (resolution.typeOf? definition).elim 0 Ty.storageSize

theorem Source.Resolution.storageSize_eq_wrap (resolution : Resolution) (definition : NodeId) :
    resolution.storageSize definition = Word.wrap (resolution.extent definition) := by
  unfold storageSize extent
  cases resolution.typeOf? definition with
  | none => rfl
  | some ty => exact ty.storageSize_eq_wrap

/-- The bytes that the arguments of a call take, with those of the static link. -/
def callSize (arguments : Nat) : Int := Word.size * arguments + Word.size

namespace Frame

def withParameters (resolution : Resolution) (parameters : List Parameter) (frame : Frame) :
    Frame :=
  { frame with
    parametersSize := frame.parametersSize +
      (parameters.map fun parameter => resolution.parameterSize parameter.node.id).sum }

/-- A frame with room for the variables and the calls of a part of its function. -/
def withContents (resolution : Resolution) (contents : Contents) (frame : Frame) : Frame :=
  { frame with
    localsSize :=
      contents.locals.foldl (fun size owned =>
        Word.wrap (size + resolution.storageSize owned.node.id))
        frame.localsSize
    argumentsSize :=
      contents.calls.foldl (fun size arguments => max size (callSize arguments))
        frame.argumentsSize }

@[simp] theorem level_withParameters (resolution : Resolution) (parameters : List Parameter)
    (frame : Frame) : (frame.withParameters resolution parameters).level = frame.level := rfl

@[simp] theorem level_withContents (resolution : Resolution) (contents : Contents)
    (frame : Frame) : (frame.withContents resolution contents).level = frame.level := rfl

theorem withContents_append (resolution : Resolution) (first second : Contents) (frame : Frame) :
    frame.withContents resolution (first ++ second) =
      (frame.withContents resolution first).withContents resolution second := by
  simp [withContents]

def initial (label : Label) (depth : Nat) : Frame :=
  (({ label, level := depth } : Frame).reserveParameter Word.size).2

end Frame

def Source.Function.frame (resolution : Resolution) (label : Label) (function : Function) :
    Frame :=
  ((Frame.initial label function.depth).withParameters resolution
    function.parameters).withContents resolution function.contents

/-- Parameters lie one above the other, from the given offset on. -/
def ParametersPlaced (resolution : Resolution) (table : FrameTable) (level : Nat) :
    (offset : Int) → List Parameter → Prop
  | _, [] => True
  | offset, parameter :: rest =>
      let size := resolution.parameterSize parameter.node.id
      table.storage? parameter.node.id = some (.parameter ⟨size, offset, level⟩) ∧
        ParametersPlaced resolution table level (offset + size) rest

/-- Variables lie one below the other, below the ones that take the given room, as far as words
can tell. -/
def LocalsPlaced (resolution : Resolution) (table : FrameTable) (level : Nat) :
    (used : Int) → List Variable → Prop
  | _, [] => True
  | used, owned :: rest =>
      let size := resolution.storageSize owned.node.id
      let grown := Word.wrap (used + size)
      table.storage? owned.node.id = some (.localVar ⟨size, Word.wrap (-grown), level⟩) ∧
        LocalsPlaced resolution table level grown rest

def GlobalsPlaced (resolution : Resolution) (table : FrameTable) (globals : List Variable) :
    Prop :=
  ∀ owned ∈ globals, table.storage? owned.node.id =
    some (.global ⟨resolution.storageSize owned.node.id, .named owned.name⟩)

section Placed

variable {resolution : Resolution} {table table' : FrameTable} {level : Nat}

theorem ParametersPlaced.congr {offset : Int} {parameters : List Parameter}
    (placed : ParametersPlaced resolution table level offset parameters)
    (same : ∀ parameter ∈ parameters,
      table'.storage? parameter.node.id = table.storage? parameter.node.id) :
    ParametersPlaced resolution table' level offset parameters := by
  induction parameters generalizing offset with
  | nil => trivial
  | cons parameter rest ih =>
      refine ⟨(same parameter (by simp)).trans placed.1, ih placed.2 ?_⟩
      exact fun other member => same other (List.mem_cons_of_mem _ member)

theorem LocalsPlaced.congr {used : Int} {locals : List Variable}
    (placed : LocalsPlaced resolution table level used locals)
    (same : ∀ owned ∈ locals,
      table'.storage? owned.node.id = table.storage? owned.node.id) :
    LocalsPlaced resolution table' level used locals := by
  induction locals generalizing used with
  | nil => trivial
  | cons owned rest ih =>
      refine ⟨(same owned (by simp)).trans placed.1, ih placed.2 ?_⟩
      exact fun other member => same other (List.mem_cons_of_mem _ member)

theorem LocalsPlaced.append {used : Int} {first second : List Variable}
    (left : LocalsPlaced resolution table level used first)
    (right : LocalsPlaced resolution table level
      (first.foldl (fun size owned => Word.wrap (size + resolution.storageSize owned.node.id)) used)
      second) :
    LocalsPlaced resolution table level used (first ++ second) := by
  induction first generalizing used with
  | nil => exact right
  | cons owned rest ih => exact ⟨left.1, ih left.2 right⟩

theorem ParametersPlaced.storage {offset : Int} {parameters : List Parameter}
    (placed : ParametersPlaced resolution table level offset parameters) {parameter : Parameter}
    (member : parameter ∈ parameters) :
    ∃ slot, table.storage? parameter.node.id = some (.parameter slot) ∧ slot.level = level := by
  induction parameters generalizing offset with
  | nil => simp at member
  | cons head rest ih =>
      rcases List.mem_cons.mp member with rfl | member
      · exact ⟨_, placed.1, rfl⟩
      · exact ih placed.2 member

theorem LocalsPlaced.storage {used : Int} {locals : List Variable}
    (placed : LocalsPlaced resolution table level used locals) {owned : Variable}
    (member : owned ∈ locals) :
    ∃ slot, table.storage? owned.node.id = some (.localVar slot) ∧ slot.level = level := by
  induction locals generalizing used with
  | nil => simp at member
  | cons head rest ih =>
      rcases List.mem_cons.mp member with rfl | member
      · exact ⟨_, placed.1, rfl⟩
      · exact ih placed.2 member

end Placed

/-- The label of the frame of a function: its name if it lies outside all others,
and otherwise a label that was drawn between two supplies. -/
def Source.Function.HasLabel (function : Function) (first last : LabelSupply) (label : Label) :
    Prop :=
  match function.around with
  | [] => label = .named function.name
  | _ :: _ => ∃ number, first.issued ≤ number ∧ number < last.issued ∧ label = .anonymous number

/-- A table describes a function. -/
structure Source.Function.LaidOut (resolution : Resolution) (table : FrameTable)
    (first last : LabelSupply) (function : Function) : Prop where
  frame : ∃ label, function.HasLabel first last label ∧
    table.frame? function.node.id = some (function.frame resolution label)
  parameters : ParametersPlaced resolution table function.depth Word.size function.parameters
  locals : LocalsPlaced resolution table function.depth 0 function.contents.locals

/-- Two functions that are both nested are called by different labels. -/
def LabelledApart (table : FrameTable) (first second : Function) : Prop :=
  first.around ≠ [] → second.around ≠ [] →
    ∀ frame other, table.frame? first.node.id = some frame →
      table.frame? second.node.id = some other → frame.label ≠ other.label

/-- A table describes functions, with labels that were drawn between two supplies. -/
structure FunctionsLaidOut (resolution : Resolution) (table : FrameTable)
    (first last : LabelSupply) (functions : List Function) : Prop where
  each : ∀ function ∈ functions, function.LaidOut resolution table first last
  apart : functions.Pairwise (LabelledApart table)

section LaidOut

variable {resolution : Resolution} {table table' : FrameTable}
  {first last first' middle last' : LabelSupply}

theorem Source.Function.HasLabel.widen {function : Function} {label : Label}
    (labelled : function.HasLabel first last label) (lower : first'.issued ≤ first.issued)
    (upper : last.issued ≤ last'.issued) : function.HasLabel first' last' label := by
  unfold Function.HasLabel at labelled ⊢
  split at labelled
  · exact labelled
  · obtain ⟨number, above, below, rfl⟩ := labelled
    exact ⟨number, lower.trans above, below.trans_le upper, rfl⟩

theorem Source.Function.LaidOut.congr {function : Function}
    (laid : function.LaidOut resolution table first last) (lower : first'.issued ≤ first.issued)
    (upper : last.issued ≤ last'.issued)
    (frames : table'.frame? function.node.id = table.frame? function.node.id)
    (storages : ∀ id ∈ function.ownedIds, table'.storage? id = table.storage? id) :
    function.LaidOut resolution table' first' last' where
  frame := by
    obtain ⟨label, labelled, found⟩ := laid.frame
    exact ⟨label, labelled.widen lower upper, frames.trans found⟩
  parameters := laid.parameters.congr fun parameter member =>
    storages _ (List.mem_append_left _ (List.mem_map.mpr ⟨parameter, member, rfl⟩))
  locals := laid.locals.congr fun owned member =>
    storages _ (List.mem_append_right _ (List.mem_map.mpr ⟨owned, member, rfl⟩))

theorem FunctionsLaidOut.congr {functions : List Function}
    (laid : FunctionsLaidOut resolution table first last functions)
    (lower : first'.issued ≤ first.issued) (upper : last.issued ≤ last'.issued)
    (frames : ∀ function ∈ functions,
      table'.frame? function.node.id = table.frame? function.node.id)
    (storages : ∀ function ∈ functions, ∀ id ∈ function.ownedIds,
      table'.storage? id = table.storage? id) :
    FunctionsLaidOut resolution table' first' last' functions where
  each function member := (laid.each function member).congr lower upper (frames function member)
    (storages function member)
  apart := laid.apart.imp_of_mem fun left right differ nested otherNested frame other found
    otherFound => differ nested otherNested frame other ((frames _ left).symm.trans found)
      ((frames _ right).symm.trans otherFound)

/-- Labels that were drawn one after the other are different. -/
theorem labelledApart_of_laidOut {one other : Function}
    (left : one.LaidOut resolution table first middle)
    (right : other.LaidOut resolution table middle last) : LabelledApart table one other := by
  intro nested otherNested frame otherFrame found otherFound same
  obtain ⟨label, labelled, isFrame⟩ := left.frame
  obtain ⟨otherLabel, otherLabelled, isOtherFrame⟩ := right.frame
  obtain rfl := Option.some_inj.mp (found.symm.trans isFrame)
  obtain rfl := Option.some_inj.mp (otherFound.symm.trans isOtherFrame)
  change label = otherLabel at same
  unfold Function.HasLabel at labelled otherLabelled
  split at labelled
  · contradiction
  · split at otherLabelled
    · contradiction
    · obtain ⟨number, -, below, rfl⟩ := labelled
      obtain ⟨otherNumber, above, -, rfl⟩ := otherLabelled
      obtain rfl := Label.anonymous.inj same
      omega

theorem FunctionsLaidOut.append {functions others : List Function}
    (left : FunctionsLaidOut resolution table first middle functions)
    (right : FunctionsLaidOut resolution table middle last others)
    (lower : first.issued ≤ middle.issued) (upper : middle.issued ≤ last.issued) :
    FunctionsLaidOut resolution table first last (functions ++ others) where
  each function member := by
    rcases List.mem_append.mp member with member | member
    · exact (left.each function member).congr (Nat.le_refl _) upper rfl fun _ _ => rfl
    · exact (right.each function member).congr lower (Nat.le_refl _) rfl fun _ _ => rfl
  apart := List.pairwise_append.mpr ⟨left.apart, right.apart, fun one member other otherMember =>
    labelledApart_of_laidOut (left.each one member) (right.each other otherMember)⟩

end LaidOut

end TreeBackend
