import Mathlib.Algebra.Ring.Int.Defs
import TreeBackend.Proofs.Calls.Nesting
import TreeBackend.Proofs.Frame.Offsets

/-!
# The frames of calls

The frames of the calls that have not returned lie one below the other: the frame pointer
of a call is where the stack pointer of its caller was.  Two words of each frame matter to
the calls: the one with the saved frame pointer of the caller, and the one with the static
link.  A store to a variable or an argument hits neither of them, in no frame.
-/

namespace TreeBackend

open Source

namespace Call

def top (call : Call) : Int := call.routine.frame.topAt call.framePointer

def savedAt (call : Call) : Int := call.routine.frame.savedAt call.framePointer

/-- The stack pointer while the innermost one of some calls runs, or while none does. -/
def stackPointerOf (base : Int) : List Call → Int
  | [] => base
  | call :: _ => call.top

/-- The frame pointer while the innermost one of some calls runs, or while none does. -/
def framePointerOf (base : Int) : List Call → Int
  | [] => base
  | call :: _ => call.framePointer

/-- The static link of a function that is called by the innermost one of some calls: the frame
pointer of the latest call of the function around it. -/
def linkOf (function : Function) (older : List Call) : Int :=
  match function.around with
  | [] => 0
  | outer :: _ => ((latest? outer older).map (·.framePointer)).getD 0

/-- The words of the frames of calls that must not change, with what they hold. -/
def keptWords (base : Int) : List Call → List (Int × Int)
  | [] => []
  | call :: older =>
      (call.savedAt, framePointerOf base older) ::
        (call.framePointer, linkOf call.function older) :: keptWords base older

/-- The same after the innermost call has stored its result where its static link was. -/
def finishedWords (base : Int) : List Call → List (Int × Int)
  | [] => []
  | call :: older => (call.savedAt, framePointerOf base older) :: keptWords base older

theorem finishedWords_subset (base : Int) (calls : List Call) :
    finishedWords base calls ⊆ keptWords base calls := by
  cases calls with
  | nil => exact List.Subset.refl _
  | cons call older =>
      exact List.cons_subset_cons _ (List.subset_cons_self ..)

/-- The frame of a call lies below the frames of older calls and above the static area, and its
parameters lie among the outgoing arguments of its caller. -/
structure IsPlaced (base floor : Int) (older : List Call) (call : Call) : Prop where
  framePointer : call.framePointer = stackPointerOf base older
  floor : floor ≤ call.top
  locals : 0 ≤ call.routine.frame.localsSize
  aligned : call.routine.frame.localsSize % Word.size = 0
  arguments : 0 ≤ call.routine.frame.argumentsSize
  saved : call.savedAt = call.framePointer - (call.routine.frame.localsSize + Word.size)
  reserved : call.savedAt = call.top + call.routine.frame.argumentsSize + Word.size
  passed : ∀ caller ∈ older.head?,
    callSize call.function.parameters.length ≤ caller.routine.frame.argumentsSize
  outermost : older = [] → call.function.parameters = []

/-- The frames of calls lie one below the other. -/
def Stacked (base floor : Int) : List Call → Prop
  | [] => True
  | call :: older => call.IsPlaced base floor older ∧ Stacked base floor older

variable {base floor : Int} {call : Call} {newer older calls : List Call}

theorem Stacked.of_append (stacked : Stacked base floor (newer ++ calls)) :
    Stacked base floor calls := by
  induction newer with
  | nil => exact stacked
  | cons call newer ih => exact ih stacked.2

theorem IsPlaced.bounds (placed : call.IsPlaced base floor older) :
    (0 ≤ call.routine.frame.localsSize ∧
        call.savedAt = call.framePointer - (call.routine.frame.localsSize + Word.size)) ∧
      call.savedAt = call.top + call.routine.frame.argumentsSize + Word.size :=
  ⟨⟨placed.locals, placed.saved⟩, placed.reserved⟩

/-- All stack pointers lie below the base and, while something runs, above the floor. -/
theorem Stacked.stackPointerOf_le (stacked : Stacked base floor calls) :
    stackPointerOf base calls ≤ base ∧ framePointerOf base calls ≤ base := by
  induction calls with
  | nil => exact ⟨Int.le_refl _, Int.le_refl _⟩
  | cons call older ih =>
      have above := (ih stacked.2).1
      have same := stacked.1.framePointer
      have arguments := stacked.1.arguments
      obtain ⟨low, high⟩ := stacked.1.bounds
      simp only [stackPointerOf, framePointerOf]
      unfold Word.size at low high
      omega

/-- The kept words lie above the room for outgoing arguments. -/
theorem Stacked.le_of_mem_keptWords (stacked : Stacked base floor (call :: older))
    {word : Int × Int} (member : word ∈ keptWords base (call :: older)) :
    call.top + call.routine.frame.argumentsSize + Word.size ≤ word.1 := by
  obtain ⟨low, high⟩ := stacked.1.bounds
  unfold Word.size at *
  induction older generalizing call with
  | nil =>
      have cases : word = (call.savedAt, base) ∨
          word = (call.framePointer, linkOf call.function []) := by
        simpa [keptWords, framePointerOf] using member
      rcases cases with rfl | rfl <;> (dsimp only; omega)
  | cons caller older ih =>
      rcases List.mem_cons.mp member with rfl | member
      · dsimp only
        omega
      · rcases List.mem_cons.mp member with rfl | member
        · dsimp only
          omega
        · obtain ⟨callerLow, callerHigh⟩ := stacked.2.1.bounds
          unfold Word.size at callerLow callerHigh
          have above := ih stacked.2 member callerLow callerHigh
          have same : call.framePointer = caller.top := stacked.1.framePointer
          have arguments := stacked.2.1.arguments
          omega

theorem Stacked.ne_of_lt (stacked : Stacked base floor calls) {address : Int}
    (below : ∀ call ∈ calls.head?,
      address < call.top + call.routine.frame.argumentsSize + Word.size) :
    ∀ word ∈ keptWords base calls, word.1 ≠ address := by
  intro word member
  cases calls with
  | nil => cases member
  | cons call older =>
      have above := stacked.le_of_mem_keptWords member
      have less := below call rfl
      omega

theorem Stacked.ne_of_le (stacked : Stacked base floor (call :: older)) {address : Int}
    (le : address ≤ call.framePointer) : ∀ word ∈ keptWords base older, word.1 ≠ address := by
  refine stacked.2.ne_of_lt ?_
  intro caller isCaller
  obtain ⟨rest, rfl⟩ := List.head?_eq_some_iff.mp isCaller
  have same : call.framePointer = caller.top := stacked.1.framePointer
  have arguments := stacked.2.1.arguments
  unfold Word.size
  omega

/-- The result of a call is stored in no other kept word. -/
theorem Stacked.ne_framePointer (stacked : Stacked base floor (call :: older)) :
    ∀ word ∈ finishedWords base (call :: older), word.1 ≠ call.framePointer := by
  refine List.forall_mem_cons.mpr ⟨?_, stacked.ne_of_le (Int.le_refl _)⟩
  have low := stacked.1.bounds.1
  dsimp only
  unfold Word.size at low
  omega

theorem Stacked.ne_savedAt (stacked : Stacked base floor (call :: older)) :
    ∀ word ∈ (call.framePointer, linkOf call.function older) :: keptWords base older,
      word.1 ≠ call.savedAt := by
  have low := stacked.1.bounds.1
  unfold Word.size at low
  refine List.forall_mem_cons.mpr ⟨?_, stacked.ne_of_le (by omega)⟩
  dsimp only
  omega

theorem Stacked.ne_of_offset (stacked : Stacked base floor (newer ++ call :: older)) {offset : Int}
    (nonzero : offset ≠ 0) (low : -call.routine.frame.localsSize ≤ offset)
    (high : offset ≤ Word.size * call.function.parameters.length) :
    ∀ word ∈ keptWords base (newer ++ call :: older), word.1 ≠ call.framePointer + offset := by
  have placed := (stacked.of_append).1
  have olderStacked := (stacked.of_append).2
  obtain ⟨savedLow, savedHigh⟩ := placed.bounds
  have arguments := placed.arguments
  have inner : stackPointerOf base (newer ++ call :: older) ≤ call.top ∧
      ∀ word ∈ keptWords base (newer ++ call :: older), word.1 ≤ call.top ∨
        word ∈ keptWords base (call :: older) := by
    clear low high nonzero
    induction newer with
    | nil => exact ⟨Int.le_refl _, fun word member => .inr member⟩
    | cons next newer ih =>
        obtain ⟨le, cases⟩ := ih stacked.2
        have nextArguments := stacked.1.arguments
        have same : next.framePointer = stackPointerOf base (newer ++ call :: older) :=
          stacked.1.framePointer
        obtain ⟨nextLow, nextHigh⟩ := stacked.1.bounds
        unfold Word.size at nextLow nextHigh
        refine ⟨by simp only [List.cons_append, stackPointerOf]; omega, fun word member => ?_⟩
        rcases List.mem_cons.mp member with rfl | member
        · exact .inl (by dsimp only; omega)
        · rcases List.mem_cons.mp member with rfl | member
          · exact .inl (by dsimp only; omega)
          · exact cases word member
  intro word member
  rcases inner.2 word member with below | member
  · unfold Word.size at *
    omega
  · rcases List.mem_cons.mp member with rfl | member
    · dsimp only
      unfold Word.size at *
      omega
    · rcases List.mem_cons.mp member with rfl | member
      · dsimp only
        omega
      · -- An older word lies above the arguments that the caller passes, so above the parameters.
        cases older with
        | nil => cases member
        | cons caller older =>
            have above := olderStacked.le_of_mem_keptWords member
            have passed := placed.passed caller rfl
            have same : call.framePointer = caller.top := placed.framePointer
            unfold callSize Word.size at *
            omega

end Call

end TreeBackend
