import TreeBackend.Machine.State
import TreeBackend.Proofs.Source.Scoping

/-!
# Calls and the functions around them

A call goes to a function outside all others, to one directly in the caller, or to one
directly in a function around the caller.  So all calls that are younger than the latest
call of a function around the innermost one belong to functions within that function: no
call of a function that lies further out comes between.
-/

namespace TreeBackend

open Source

/-- A call that has not returned: the function, its code, and where its frame lies. -/
structure Call where
  function : Function
  routine : Machine.Routine
  framePointer : Int

namespace Call

/-- Whether a call is one of the function with the given number. -/
def isOf (definition : NodeId) (call : Call) : Bool := call.function.node.id = definition

/-- The latest call of a function among some calls, the innermost one first. -/
def latest? (definition : NodeId) (calls : List Call) : Option Call :=
  calls.find? (isOf definition)

/-- Each call, the innermost one first, goes to a function that can be called where it is
called; the outermost one to a function outside all others. -/
def Nested (program : Program) : List Call → Prop
  | [] => True
  | [outermost] => outermost.function ∈ program.functions ∧ outermost.function.around = []
  | call :: caller :: rest =>
      (call.function ∈ program.functions ∧ call.function.IsVisibleFrom caller.function) ∧
        Nested program (caller :: rest)

section Nested

variable {program : Program} {call : Call} {rest : List Call} {definition : NodeId}

theorem Nested.mem_functions (nested : Nested program (call :: rest)) :
    call.function ∈ program.functions := by
  cases rest with
  | nil => exact nested.1
  | cons caller rest => exact nested.1.1

theorem Nested.tail (nested : Nested program (call :: rest)) : Nested program rest := by
  cases rest with
  | nil => trivial
  | cons caller rest => exact nested.2

theorem Nested.of_append {inner : List Call} (nested : Nested program (inner ++ rest)) :
    Nested program rest := by
  induction inner with
  | nil => exact nested
  | cons call inner ih => exact ih nested.tail

theorem Nested.mem_of_mem {calls : List Call} (nested : Nested program calls)
    (member : call ∈ calls) : call.function ∈ program.functions := by
  obtain ⟨newer, older, rfl⟩ := List.append_of_mem member
  exact nested.of_append.mem_functions

theorem Nested.exists_caller (nested : Nested program (call :: rest))
    (inner : call.function.around ≠ []) :
    ∃ caller older, rest = caller :: older ∧ call.function.IsVisibleFrom caller.function := by
  cases rest with
  | nil => exact (inner nested.2).elim
  | cons caller older => exact ⟨caller, older, rfl, nested.1.2⟩

theorem Nested.around_subset (distinct : program.definitionIds.Nodup) {caller : Call}
    (nested : Nested program (call :: caller :: rest)) :
    call.function.around ⊆ caller.function.node.id :: caller.function.around := by
  obtain ⟨⟨member, visible⟩, callerNested⟩ := nested
  have callerMember := callerNested.mem_functions
  rcases Program.around_eq member with outermost | ⟨outer, outerMember, same⟩
  · rw [outermost]
    exact List.nil_subset _
  · have isThere := visible outer.node.id (by simp [same])
    rw [same]
    rcases List.mem_cons.mp isThere with isCaller | isAround
    · obtain rfl := Program.eq_of_id_eq distinct outerMember callerMember isCaller
      exact List.Subset.refl _
    · obtain ⟨between, split⟩ := Program.around_split distinct callerMember outerMember isAround
      rw [split]
      exact List.subset_cons_of_subset _ (List.subset_append_right _ _)

/-- There is a call of each function that is or is around the innermost one, and all calls
since the latest one belong to functions within it. -/
theorem Nested.exists_latest (distinct : program.definitionIds.Nodup)
    (nested : Nested program (call :: rest))
    (isAround : definition ∈ call.function.node.id :: call.function.around) :
    ∃ inner found older, call :: rest = inner ++ found :: older ∧
      found.function.node.id = definition ∧
      ∀ other ∈ inner, definition ∈ other.function.around := by
  induction rest generalizing call with
  | nil =>
      rw [nested.2, List.mem_singleton] at isAround
      exact ⟨[], call, [], rfl, isAround.symm, by simp⟩
  | cons caller rest ih =>
      by_cases isOwn : call.function.node.id = definition
      · exact ⟨[], call, _, rfl, isOwn, by simp⟩
      · have isOuter := (List.mem_cons.mp isAround).resolve_left (Ne.symm isOwn)
        obtain ⟨inner, found, older, split, same, within⟩ :=
          ih nested.tail (nested.around_subset distinct isOuter)
        refine ⟨call :: inner, found, older, by rw [split, List.cons_append], same, ?_⟩
        exact List.forall_mem_cons.mpr ⟨isOuter, within⟩

theorem not_isOf_of_mem_around (distinct : program.definitionIds.Nodup) {inner outer : Function}
    {other : Call} (innerMember : inner ∈ program.functions)
    (otherMember : other.function ∈ program.functions)
    (within : inner.node.id ∈ other.function.around)
    (isOuter : outer.node.id ∈ inner.node.id :: inner.around)
    (outerMember : outer ∈ program.functions) : isOf outer.node.id other = false := by
  have deeper := Program.depth_lt distinct otherMember innerMember within
  have notDeeper : outer.depth ≤ inner.depth := by
    rcases List.mem_cons.mp isOuter with same | isAround
    · exact Nat.le_of_eq (by rw [Program.eq_of_id_eq distinct outerMember innerMember same])
    · exact Nat.le_of_lt (Program.depth_lt distinct innerMember outerMember isAround)
  refine decide_eq_false fun same => ?_
  have same := Program.eq_of_id_eq distinct otherMember outerMember same
  rw [same] at deeper
  omega

/-- Further out, it is the same to look for a call among all calls or among those that are
older than the latest call of a function in between. -/
theorem Nested.latest?_append (distinct : program.definitionIds.Nodup)
    {inner older : List Call} {found : Call} (nested : Nested program (inner ++ found :: older))
    (within : ∀ other ∈ inner, found.function.node.id ∈ other.function.around) :
    latest? found.function.node.id (inner ++ found :: older) = some found ∧
      ∀ outer ∈ found.function.around,
        latest? outer (inner ++ found :: older) = latest? outer older := by
  have foundNested := nested.of_append
  have foundMember := foundNested.mem_functions
  have members : ∀ other ∈ inner, other.function ∈ program.functions := fun other member =>
    nested.mem_of_mem (List.mem_append_left _ member)
  have skipped : ∀ outer ∈ program.functions,
      outer.node.id ∈ found.function.node.id :: found.function.around →
        inner.find? (isOf outer.node.id) = none := by
    intro outer outerMember isOuter
    refine List.find?_eq_none.mpr fun other member => Bool.eq_false_iff.mp ?_
    exact not_isOf_of_mem_around distinct foundMember (members other member)
      (within other member) isOuter outerMember
  refine ⟨?_, fun outer isAround => ?_⟩
  · rw [latest?, List.find?_append, skipped _ foundMember (List.mem_cons_self ..), Option.none_or,
      List.find?_cons_of_pos (show isOf found.function.node.id found = true from
        decide_eq_true rfl)]
  · obtain ⟨function, member, rfl⟩ := Program.exists_of_mem_around foundMember isAround
    have notOwn : isOf function.node.id found = false := by
      have less := Program.depth_lt distinct foundMember member isAround
      refine decide_eq_false fun same => ?_
      rw [Program.eq_of_id_eq distinct foundMember member same] at less
      omega
    rw [latest?, List.find?_append, skipped _ member (List.mem_cons_of_mem _ isAround),
      Option.none_or, List.find?_cons_of_neg (by simp [notOwn])]
    rfl

end Nested

end Call

end TreeBackend
