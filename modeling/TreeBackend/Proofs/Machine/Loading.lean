import TreeBackend.Machine.State
import TreeBackend.Proofs.Machine.Inversion

/-!
# What loading leaves in memory

Chunks are placed one above the other.  Each takes whole words, its label stands
for the first of them, and a function or a string constant is written there.
-/

namespace TreeBackend

namespace IR.Chunk

def label : Chunk → Label
  | .code frame _ => frame.label
  | .data slot _ | .global slot => slot.label

/-- The bytes that a chunk asks for. -/
def size : Chunk → Int
  | .code .. => Word.size
  | .data slot _ | .global slot => slot.size

/-- The function of a chunk, if it holds one. -/
def routine? : Chunk → Option Machine.Routine
  | .code frame body => some (.ofBody frame body)
  | .data .. | .global _ => none

/-- What a chunk writes to its first word, given the number of its function. -/
def value? (number : Nat) : Chunk → Option Machine.Value
  | .code .. => some (.code number)
  | .data _ text => some (.str text)
  | .global _ => none

end IR.Chunk

namespace Machine

open IR (Chunk)

namespace Memory

/-- The memory with more room in use. -/
def grow (memory : Memory) (size : Int) : Memory :=
  { memory with staticTop := memory.topAfter size }

/-- The memory with a chunk behind the ones before it. -/
def withChunk (memory : Memory) (number : Nat) (chunk : Chunk) : Memory :=
  ((chunk.value? number).elim (memory.grow chunk.size)
    ((memory.grow chunk.size).write memory.staticTop)).register chunk.label memory.staticTop

theorem allocate_eq_ok {memory memory' : Memory} {size address : Int} :
    memory.allocate size = .ok (address, memory') ↔
      memory.topAfter size ≤ memory.size ∧ address = memory.staticTop ∧
        memory' = memory.grow size := by
  unfold allocate grow
  dsimp only
  split
  · simp only [reduceCtorEq, false_iff, not_and]
    omega
  · simp only [Except.ok.injEq, Prod.mk.injEq]
    constructor
    · rintro ⟨rfl, rfl⟩
      exact ⟨by omega, rfl, rfl⟩
    · rintro ⟨-, rfl, rfl⟩
      exact ⟨rfl, rfl⟩

theorem store_eq_ok {memory memory' : Memory} {address : Int} {value : Value} :
    memory.store address value = .ok memory' ↔
      memory.isAddress address = true ∧ memory' = memory.write address value := by
  unfold store
  split
  · next valid => simp [valid, eq_comm]
  · next invalid => simp [invalid]

end Memory

theorem except_bind_eq_ok {ε α β : Type} {first : Except ε α} {next : α → Except ε β}
    {result : β} :
    (first >>= next) = .ok result ↔ ∃ value, first = .ok value ∧ next value = .ok result := by
  cases first <;> simp [bind, Except.bind]

theorem placeChunk_eq_ok {memory memory' : Memory} {routines routines' : Array Routine}
    {chunk : Chunk} (placed : placeChunk memory routines chunk = .ok (memory', routines')) :
    memory.topAfter chunk.size ≤ memory.size ∧
      memory' = memory.withChunk routines.size chunk ∧
      routines' = routines ++ chunk.routine?.toList := by
  cases chunk with
  | code frame body =>
      simp only [placeChunk, except_bind_eq_ok, Prod.exists, Memory.allocate_eq_ok,
        Memory.store_eq_ok] at placed
      obtain ⟨_, _, ⟨room, rfl, rfl⟩, _, ⟨-, rfl⟩, same⟩ := placed
      obtain ⟨rfl, rfl⟩ := Prod.mk.inj (Except.ok.inj same)
      exact ⟨room, rfl, by simp [Chunk.routine?]⟩
  | data slot text =>
      simp only [placeChunk, except_bind_eq_ok, Prod.exists, Memory.allocate_eq_ok,
        Memory.store_eq_ok] at placed
      obtain ⟨_, _, ⟨room, rfl, rfl⟩, _, ⟨-, rfl⟩, same⟩ := placed
      obtain ⟨rfl, rfl⟩ := Prod.mk.inj (Except.ok.inj same)
      exact ⟨room, rfl, by simp [Chunk.routine?]⟩
  | global slot =>
      simp only [placeChunk, except_bind_eq_ok, Prod.exists, Memory.allocate_eq_ok] at placed
      obtain ⟨_, _, ⟨room, rfl, rfl⟩, same⟩ := placed
      obtain ⟨rfl, rfl⟩ := Prod.mk.inj (Except.ok.inj same)
      exact ⟨room, rfl, by simp [Chunk.routine?]⟩

theorem address?_register (memory : Memory) (label other : Label) (address : Int) :
    (memory.register label address).address? other =
      if label = other then some address else memory.address? other :=
  Table.get?_insert ..

/-- A chunk gets an address, and nothing else in the table of labels changes. -/
theorem address?_withChunk (memory : Memory) (number : Nat) (chunk : Chunk) (label : Label) :
    (memory.withChunk number chunk).address? label =
      if chunk.label = label then some memory.staticTop else memory.address? label := by
  unfold Memory.withChunk
  rw [address?_register]
  cases chunk.value? number <;> rfl

/-- Placed chunks have addresses, and their functions stand behind the others. -/
theorem placeChunks_eq_ok {chunks : List Chunk} {memory memory' : Memory}
    {routines routines' : Array Routine}
    (placed : placeChunks memory routines chunks = .ok (memory', routines')) :
    (∀ label, (memory.address? label).isSome = true ∨ label ∈ chunks.map Chunk.label →
      (memory'.address? label).isSome = true) ∧
      routines' = routines ++ chunks.filterMap Chunk.routine? := by
  induction chunks generalizing memory routines with
  | nil =>
      obtain ⟨rfl, rfl⟩ := Prod.mk.inj (Except.ok.inj placed)
      simp
  | cons chunk rest ih =>
      rw [placeChunks, except_bind_eq_ok] at placed
      obtain ⟨⟨middle, between⟩, first, others⟩ := placed
      obtain ⟨-, rfl, rfl⟩ := placeChunk_eq_ok first
      obtain ⟨known, rfl⟩ := ih others
      refine ⟨fun label holds => known label ?_, ?_⟩
      · rw [address?_withChunk]
        split
        · exact .inl rfl
        · next different =>
            rcases holds with holds | member
            · exact .inl holds
            · rw [List.map_cons, List.mem_cons] at member
              exact .inr (member.resolve_left (Ne.symm different))
      · cases chunk <;> simp [Chunk.routine?, List.filterMap_cons]

/-- What loading leaves: a valid configuration, all functions in their order, and an
address for each chunk and for the two pointers. -/
theorem load_eq_ok {chunks : List Chunk} {config : Config} {machine : Machine}
    (loaded : load chunks config = .ok machine) :
    machine.routines = (chunks.filterMap Chunk.routine?).toArray ∧
      ∀ label, label = .framePointer ∨ label = .stackPointer ∨ label ∈ chunks.map Chunk.label →
        (machine.memory.address? label).isSome = true := by
  unfold load at loaded
  split at loaded
  · cases loaded
  · obtain ⟨⟨memory, routines⟩, placed, same⟩ := except_bind_eq_ok.mp loaded
    obtain rfl := Except.ok.inj same
    obtain ⟨known, rfl⟩ := placeChunks_eq_ok placed
    refine ⟨by simp [registerPointers], fun label holds => ?_⟩
    simp only [registerPointers, address?_register]
    split
    · rfl
    · next notStack =>
        split
        · rfl
        · next notFrame =>
            exact known label (.inr
              ((holds.resolve_left (Ne.symm notFrame)).resolve_left (Ne.symm notStack)))

theorem generator_of_load {chunks : List Chunk} {config : Config} {machine : Machine}
    (loaded : load chunks config = .ok machine) : machine.random.generator = config.generator := by
  unfold load at loaded
  split at loaded
  · cases loaded
  · obtain ⟨⟨memory, routines⟩, -, same⟩ := except_bind_eq_ok.mp loaded
    obtain rfl := Except.ok.inj same
    exact config.generator_randomSource

@[simp] theorem Routine.frame_ofBody (frame : Frame) (body : IR.Stmt) :
    (Routine.ofBody frame body).frame = frame := by
  cases body <;> rfl

theorem exists_code_of_mem_routines {chunks : List Chunk} {config : Config} {machine : Machine}
    (loaded : load chunks config = .ok machine) {routine : Routine}
    (member : routine ∈ machine.routines) :
    ∃ frame body, .code frame body ∈ chunks ∧ routine = .ofBody frame body := by
  rw [(load_eq_ok loaded).1] at member
  obtain ⟨chunk, isThere, isRoutine⟩ := List.mem_filterMap.mp (List.mem_toArray.mp member)
  cases chunk with
  | code frame body => exact ⟨frame, body, isThere, (Option.some_inj.mp isRoutine).symm⟩
  | data | global => cases isRoutine

end Machine

end TreeBackend
