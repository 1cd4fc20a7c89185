import TreeBackend.Proofs.Machine.Placement
import TreeBackend.Proofs.Tiling

/-!
# The static area of a loaded machine

A list of chunks can be loaded exactly if what they take, each at least one word and whole
words only, fits behind the first word of a valid memory.  The chunks then fill the static
area in their order.  Functions and strings stand in the first words of their chunks, all
other words are zero, and a label leads to the last chunk that carries it.
-/

namespace TreeBackend

/-- The statements that the body of a function consists of. -/
def IR.Stmt.items : IR.Stmt → List IR.Stmt
  | .seq items => items
  | body => [body]

namespace Machine

open IR (Chunk)

def Place.region (place : Place) : Set Int :=
  Set.Ico place.address (place.address + Memory.staticRoom place.chunk.size)

theorem Routine.items_ofBody (frame : Frame) (body : IR.Stmt) :
    (Routine.ofBody frame body).statements.toList = body.items := by
  cases body <;> rfl

/-- A chunk lies behind the ones before it, and functions are numbered in their order. -/
theorem getElem?_places (address : Int) (number : Nat) (chunks : List Chunk) (index : Nat) :
    (places address number chunks)[index]? = chunks[index]?.map fun chunk =>
      ⟨chunk, address + staticArea (chunks.take index),
        number + ((chunks.take index).filterMap Chunk.routine?).length⟩ := by
  induction chunks generalizing address number index with
  | nil => simp [places]
  | cons chunk rest ih =>
      cases index with
      | zero => simp [places, staticArea]
      | succ index =>
          rw [places, List.getElem?_cons_succ, ih, List.getElem?_cons_succ, List.take_succ_cons,
            staticArea, Int.add_assoc]
          cases isCode : chunk.routine? <;> simp [isCode, Nat.add_assoc, Nat.add_comm 1]

/-- The regions of placed chunks fill the range that they take. -/
theorem tiles_places (address : Int) (number : Nat) (chunks : List Chunk) :
    Tiles address (address + staticArea chunks)
      ((places address number chunks).map Place.region) := by
  induction chunks generalizing address number with
  | nil =>
      rw [staticArea, Int.add_zero]
      exact .nil address
  | cons chunk rest ih =>
      have room := (staticRoom_bounds chunk.size).1
      have first : Tiles address (address + Memory.staticRoom chunk.size)
          [Place.region ⟨chunk, address, number⟩] :=
        .single (by unfold Word.size at room; omega)
      rw [staticArea, ← Int.add_assoc]
      exact first.append (ih _ _)

/-- A machine whose static area consists of certain chunks. -/
structure StaticLayout (chunks : List Chunk) (config : Config) (machine : Machine) : Prop where
  size : machine.memory.size = config.memorySize
  /-- Each chunk has its place behind the first word and the chunks before it. -/
  place : ∀ index, (places Word.size 0 chunks)[index]? = chunks[index]?.map fun chunk =>
    Place.mk chunk (Word.size + staticArea (chunks.take index))
      ((chunks.take index).filterMap Chunk.routine?).length
  regions : Tiles Word.size machine.memory.staticTop
    ((places Word.size 0 chunks).map Place.region)
  /-- The last chunk that carries a label decides where it leads. -/
  label : ∀ label, label ≠ .framePointer → label ≠ .stackPointer →
    machine.memory.address? label = addressOf? label (places Word.size 0 chunks)
  functions : machine.routines.size = (chunks.filterMap Chunk.routine?).length
  code : ∀ place ∈ places Word.size 0 chunks, ∀ frame body, place.chunk = .code frame body →
    machine.memory.read? place.address = some (.code place.number) ∧
      ∃ routine, machine.routines[place.number]? = some routine ∧ routine.frame = frame ∧
        routine.statements.toList = body.items
  text : ∀ place ∈ places Word.size 0 chunks, ∀ slot text, place.chunk = .data slot text →
    machine.memory.read? place.address = some (.str text)
  zero : ∀ address, machine.memory.isAddress address = true →
    (∀ place ∈ places Word.size 0 chunks, place.address = address →
      ∃ slot, place.chunk = .global slot) →
    machine.memory.read? address = some (.int 0)

theorem staticLayout_ofChunks {chunks : List Chunk} {config : Config}
    (valid : config.validate = .ok ())
    (room : Word.size + staticArea chunks ≤ config.memorySize) :
    StaticLayout chunks config (ofChunks chunks config) where
  size := size_ofChunks chunks valid
  place index := by
    rw [getElem?_places]
    simp only [Nat.zero_add]
  regions := by
    rw [staticTop_ofChunks chunks valid room]
    exact tiles_places ..
  label label noFrame noStack := address?_ofChunks chunks valid room noFrame noStack
  functions := by simp [ofChunks, withPointers, registerPointers]
  code := by
    rintro ⟨chunk, address, number⟩ member frame body rfl
    have read := read?_ofChunks valid room (isAddress_of_mem_places valid room member)
    rw [writtenAt?_of_mem member rfl] at read
    have found := @routine?_of_mem_places _ _ _ #[] (.ofBody frame body) member rfl
    rw [Array.empty_append] at found
    exact ⟨read, _, found, Routine.frame_ofBody .., Routine.items_ofBody ..⟩
  text := by
    rintro ⟨chunk, address, number⟩ member slot text rfl
    have read := read?_ofChunks valid room (isAddress_of_mem_places valid room member)
    rwa [writtenAt?_of_mem member rfl] at read
  zero address isAddress unwritten := by
    rw [read?_ofChunks valid room isAddress, writtenAt?_eq_none]
    · rfl
    · intro place member same
      obtain ⟨slot, isGlobal⟩ := unwritten place member same
      rw [isGlobal]
      rfl

/-- Chunks whose sizes fit can be loaded exactly if there is room for them, and then they fill
the static area. -/
theorem load_lays_out (chunks : List Chunk) (config : Config) (sizes : SizesFit chunks) :
    ((∃ machine, load chunks config = .ok machine) ↔
      config.validate = .ok () ∧ Word.size + staticArea chunks ≤ config.memorySize) ∧
    ∀ machine, load chunks config = .ok machine → StaticLayout chunks config machine := by
  constructor
  · constructor
    · rintro ⟨machine, loads⟩
      obtain ⟨valid, room, -⟩ := (load_eq_ok_iff sizes).mp loads
      exact ⟨valid, room⟩
    · rintro ⟨valid, room⟩
      exact ⟨_, (load_eq_ok_iff sizes).mpr ⟨valid, room, rfl⟩⟩
  · intro machine loads
    obtain ⟨valid, room, rfl⟩ := (load_eq_ok_iff sizes).mp loads
    exact staticLayout_ofChunks valid room

/-- Of two chunks with one label the second one is found, and sizes that are no whole words, or
negative, are raised to whole words.  The five chunks need the 28 bytes of the memory. -/
theorem load_lays_out_repeated_label :
    let label : Label := .named "twice"
    let chunks : List Chunk :=
      [.data ⟨6, label⟩ "first", .code { label := mainLabel, level := 1 } (.label label),
        .global ⟨-3, .anonymous 0⟩, .data ⟨0, label⟩ "second",
        .code { label := .framePointer, level := 2 } (.seq [])]
    SizesFit chunks ∧ (∃ machine, load chunks { memorySize := 28 } = .ok machine ∧
      StaticLayout chunks { memorySize := 28 } machine ∧
      machine.memory.address? label = some 20 ∧
      machine.memory.read? 4 = some (.str "first") ∧
      machine.memory.read? 8 = some (.int 0) ∧
      machine.memory.read? 24 = some (.code 1)) ∧
    ¬∃ machine, load chunks { memorySize := 24 } = .ok machine := by
  intro label chunks
  have sizes : SizesFit chunks := by decide
  obtain ⟨succeeds, laid⟩ := load_lays_out chunks { memorySize := 28 } sizes
  obtain ⟨machine, loads⟩ := succeeds.mpr (by decide)
  have layout := laid machine loads
  refine ⟨sizes, ⟨machine, loads, layout, ?_, ?_, ?_, ?_⟩, ?_⟩
  · exact layout.label label (by decide) (by decide)
  · exact layout.text _ (List.mem_of_getElem? (layout.place 0)) _ _ rfl
  · have inside : machine.memory.isAddress 8 = true := by
      rw [Memory.isAddress_iff, layout.size]
      decide
    refine layout.zero 8 inside fun place member same => ?_
    simp only [places, chunks, List.mem_cons, List.not_mem_nil, or_false] at member
    rcases member with rfl | rfl | rfl | rfl | rfl
    all_goals exact absurd same (by decide)
  · exact (layout.code _ (List.mem_of_getElem? (layout.place 4)) _ _ rfl).1
  · rw [(load_lays_out chunks { memorySize := 24 } sizes).1]
    decide

/-- The end of a global variable that takes nearly all of a word is a negative number, which every
memory seems to have room for. -/
theorem oversized_global_is_loaded :
    let chunks : List Chunk := [.global ⟨9223372036854775804, .named "huge"⟩]
    let config : Config := { memorySize := 64 }
    config.validate = .ok () ∧ config.memorySize < Word.size + staticArea chunks ∧
      ∃ machine, load chunks config = .ok machine ∧
        machine.memory.staticTop = -9223372036854775808 := by
  intro chunks config
  have loads : (load chunks config).toOption.any fun machine =>
      machine.memory.staticTop = -9223372036854775808 := by decide +kernel
  obtain ⟨machine, loaded, top⟩ := (Option.any_eq_true ..).mp loads
  exact ⟨by decide, by decide, machine, toOption_eq_some_iff.mp loaded, of_decide_eq_true top⟩

end Machine

end TreeBackend
