import Mathlib.Data.List.Nodup
import Mathlib.Order.Nat
import TreeBackend.Proofs.Machine.Invocation
import TreeBackend.Proofs.Machine.Loading

/-!
# Where chunks are placed

Loading succeeds exactly if the static area has room in the memory.  The chunks then
lie one above the other in their order, each at an address of its own, and all words but
their first ones hold zeros.  A label that several chunks carry leads to the last of them.
-/

namespace TreeBackend.Machine

open IR (Chunk)

/-! ### Addresses -/

/-- The bytes that something of the given size takes in the static area: whole words, and at
least one. -/
def Memory.staticRoom (size : Int) : Int :=
  (max size Word.size + Word.size - 1) / Word.size * Word.size

/-- A chunk with its address and with the number that a function there gets. -/
structure Place where
  chunk : Chunk
  address : Int
  number : Nat

def Place.word (place : Place) : Value := (place.chunk.value? place.number).getD (.int 0)

def places : Int → Nat → List Chunk → List Place
  | _, _, [] => []
  | address, number, chunk :: rest =>
      ⟨chunk, address, number⟩ ::
        places (address + Memory.staticRoom chunk.size) (number + chunk.routine?.toList.length) rest

def staticArea : List Chunk → Int
  | [] => 0
  | chunk :: rest => Memory.staticRoom chunk.size + staticArea rest

theorem staticRoom_bounds (size : Int) :
    Word.size ≤ Memory.staticRoom size ∧ Memory.staticRoom size % Word.size = 0 := by
  unfold Memory.staticRoom Word.size
  omega

theorem le_staticRoom (size : Int) : size ≤ Memory.staticRoom size := by
  unfold Memory.staticRoom Word.size
  omega

theorem staticArea_nonneg (chunks : List Chunk) : 0 ≤ staticArea chunks := by
  induction chunks with
  | nil => exact Int.le_refl 0
  | cons chunk rest ih =>
      have room := (staticRoom_bounds chunk.size).1
      unfold Word.size at room
      rw [staticArea]
      omega

section Places

variable {chunks : List Chunk} {address : Int} {number : Nat} {place other : Place}

theorem map_places (address : Int) (number : Nat) (chunks : List Chunk) :
    (places address number chunks).map Place.chunk = chunks := by
  induction chunks generalizing address number with
  | nil => rfl
  | cons chunk rest ih => rw [places, List.map_cons, ih]

theorem chunk_mem_of_mem_places (member : place ∈ places address number chunks) :
    place.chunk ∈ chunks := by
  rw [← map_places address number chunks]
  exact List.mem_map_of_mem member

theorem bounds_of_mem_places (member : place ∈ places address number chunks)
    (aligned : address % Word.size = 0) :
    address ≤ place.address ∧ place.address + Word.size ≤ address + staticArea chunks ∧
      place.address % Word.size = 0 := by
  induction chunks generalizing address number with
  | nil => cases member
  | cons chunk rest ih =>
      have room := staticRoom_bounds chunk.size
      have above := staticArea_nonneg rest
      rw [staticArea]
      unfold Word.size at *
      rcases List.mem_cons.mp member with rfl | member
      · dsimp only
        omega
      · have bounds := ih member (by omega)
        omega

/-- Nothing else is placed at the same address. -/
theorem eq_of_address_eq (member : place ∈ places address number chunks)
    (otherMember : other ∈ places address number chunks) (aligned : address % Word.size = 0)
    (same : place.address = other.address) : place = other := by
  induction chunks generalizing address number with
  | nil => cases member
  | cons chunk rest ih =>
      have room := staticRoom_bounds chunk.size
      have restAligned : (address + Memory.staticRoom chunk.size) % Word.size = 0 := by
        unfold Word.size at *
        omega
      unfold Word.size at room
      rcases List.mem_cons.mp member with rfl | member
      · rcases List.mem_cons.mp otherMember with rfl | otherMember
        · rfl
        · have bounds := (bounds_of_mem_places otherMember restAligned).1
          dsimp only at same
          omega
      · rcases List.mem_cons.mp otherMember with rfl | otherMember
        · have bounds := (bounds_of_mem_places member restAligned).1
          dsimp only at same
          omega
        · exact ih member otherMember restAligned

/-- The number of a placed function leads to it. -/
theorem routine?_of_mem_places {routines : Array Routine} {routine : Routine}
    (member : place ∈ places address routines.size chunks)
    (holds : place.chunk.routine? = some routine) :
    (routines ++ (chunks.filterMap Chunk.routine?).toArray)[place.number]? = some routine := by
  induction chunks generalizing address routines with
  | nil => cases member
  | cons chunk rest ih =>
      rcases List.mem_cons.mp member with rfl | member
      · simp [holds]
      · have sameSize : (routines ++ chunk.routine?.toList).size =
            routines.size + chunk.routine?.toList.length := by
          cases chunk.routine? <;> simp
        rw [← sameSize] at member
        have found := ih member
        cases isCode : chunk.routine? with
        | none => simpa [isCode] using found
        | some first => simpa [isCode] using found

def writtenAt? (address : Int) : List Place → Option Value
  | [] => none
  | place :: rest =>
      if place.address = address then place.chunk.value? place.number else writtenAt? address rest

/-- The address that a label gets from placed chunks: that of the last one that carries it. -/
def addressOf? (label : Label) : List Place → Option Int
  | [] => none
  | place :: rest =>
      (addressOf? label rest).or (if place.chunk.label = label then some place.address else none)

theorem writtenAt?_eq_none {found : List Place} {other : Int}
    (unwritten : ∀ place ∈ found, place.address = other → place.chunk.value? place.number = none) :
    writtenAt? other found = none := by
  induction found with
  | nil => rfl
  | cons place rest ih =>
      rw [writtenAt?]
      split
      · next same => exact unwritten place (List.mem_cons_self ..) same
      · exact ih fun later member => unwritten later (List.mem_cons_of_mem _ member)

theorem writtenAt?_of_mem (member : place ∈ places address number chunks)
    (aligned : address % Word.size = 0) :
    writtenAt? place.address (places address number chunks) = place.chunk.value? place.number := by
  induction chunks generalizing address number with
  | nil => cases member
  | cons chunk rest ih =>
      rw [places, writtenAt?]
      split
      · next same =>
          rw [eq_of_address_eq member (List.mem_cons_self ..) aligned same.symm]
      · next different =>
          have restAligned : (address + Memory.staticRoom chunk.size) % Word.size = 0 := by
            have room := staticRoom_bounds chunk.size
            unfold Word.size at *
            omega
          rcases List.mem_cons.mp member with rfl | member
          · exact absurd rfl different
          · exact ih member restAligned

theorem addressOf?_eq_none {label : Label} (absent : label ∉ chunks.map Chunk.label) :
    addressOf? label (places address number chunks) = none := by
  induction chunks generalizing address number with
  | nil => rfl
  | cons chunk rest ih =>
      rw [List.map_cons, List.mem_cons, not_or] at absent
      rw [places, addressOf?, ih absent.2, if_neg (Ne.symm absent.1), Option.none_or]

theorem exists_place_of_addressOf? {label : Label} {found : List Place} {address : Int}
    (isAddress : addressOf? label found = some address) :
    ∃ place ∈ found, place.chunk.label = label ∧ place.address = address := by
  induction found with
  | nil => cases isAddress
  | cons place rest ih =>
      rw [addressOf?, Option.or_eq_some_iff] at isAddress
      rcases isAddress with later | ⟨-, here⟩
      · obtain ⟨other, member, carries, same⟩ := ih later
        exact ⟨other, List.mem_cons_of_mem _ member, carries, same⟩
      · split at here
        · next carries => exact ⟨place, List.mem_cons_self .., carries, Option.some_inj.mp here⟩
        · cases here

/-- If labels are different, then each leads to the chunk that carries it. -/
theorem addressOf?_of_mem (member : place ∈ places address number chunks)
    (distinct : (chunks.map Chunk.label).Nodup) :
    addressOf? place.chunk.label (places address number chunks) = some place.address := by
  induction chunks generalizing address number with
  | nil => cases member
  | cons chunk rest ih =>
      rw [List.map_cons, List.nodup_cons] at distinct
      rw [places, addressOf?]
      rcases List.mem_cons.mp member with rfl | member
      · rw [addressOf?_eq_none distinct.1, if_pos rfl, Option.none_or]
      · rw [ih member distinct.2, Option.some_or]

end Places

/-! ### Placing -/

namespace Memory

variable (memory : Memory) (number : Nat) (chunk : Chunk)

@[simp] theorem size_withChunk : (memory.withChunk number chunk).size = memory.size := by
  unfold withChunk
  cases chunk.value? number with
  | none => rfl
  | some value => exact size_write _ _ value

@[simp] theorem staticTop_withChunk :
    (memory.withChunk number chunk).staticTop = memory.topAfter chunk.size := by
  unfold withChunk
  cases chunk.value? number <;> rfl

/-- The static area grows by whole words, as long as a word can tell its end. -/
theorem topAfter_eq {memory : Memory} {size : Int} (lower : 0 ≤ memory.staticTop)
    (fits : memory.staticTop + max size Word.size + Word.size ≤ 9223372036854775808) :
    memory.topAfter size = memory.staticTop + staticRoom size := by
  unfold topAfter staticRoom
  unfold Word.size at *
  have words : Word.Fits (max size 4 + 4 - 1) := by
    unfold Word.Fits
    omega
  have top : Word.Fits (memory.staticTop + (max size 4 + 4 - 1) / 4 * 4) := by
    unfold Word.Fits
    omega
  dsimp only
  rw [Word.wrap_of_fits words, Int.tdiv_eq_ediv_of_nonneg (by omega), Word.wrap_of_fits top]

/-- What a memory has room for is counted without loss. -/
theorem topAfter_eq_of_room {memory : Memory} {size : Int} (lower : 0 ≤ memory.staticTop)
    (room : memory.staticTop + staticRoom size ≤ memoryLimit) :
    memory.topAfter size = memory.staticTop + staticRoom size := by
  have above := le_staticRoom size
  have word := (staticRoom_bounds size).1
  refine topAfter_eq lower ?_
  unfold memoryLimit at room
  unfold Word.size at *
  omega

/-- A chunk changes nothing but its own first word. -/
theorem read?_withChunk (valid : memory.isAddress memory.staticTop = true) (address : Int) :
    (memory.withChunk number chunk).read? address =
      if memory.staticTop = address then (chunk.value? number).or (memory.read? address)
      else memory.read? address := by
  unfold withChunk
  cases chunk.value? number with
  | none =>
      split <;> rfl
  | some value =>
      have written := (memory.grow chunk.size).read?_write value address valid
      exact written

end Memory

theorem placeChunk_eq {memory : Memory} {routines : Array Routine} {chunk : Chunk}
    (valid : memory.isAddress memory.staticTop = true)
    (room : memory.topAfter chunk.size ≤ memory.size) :
    placeChunk memory routines chunk =
      .ok (memory.withChunk routines.size chunk, routines ++ chunk.routine?.toList) := by
  have allocated : memory.allocate chunk.size = .ok (memory.staticTop, memory.grow chunk.size) :=
    Memory.allocate_eq_ok.mpr ⟨room, rfl, rfl⟩
  have stored : ∀ value, (memory.grow chunk.size).store memory.staticTop value =
      .ok ((memory.grow chunk.size).write memory.staticTop value) :=
    fun value => Memory.store_eq_ok.mpr ⟨valid, rfl⟩
  cases chunk with
  | code frame body =>
      refine except_bind_eq_ok.mpr ⟨_, allocated, except_bind_eq_ok.mpr ⟨_, stored _, ?_⟩⟩
      simp [Memory.withChunk, Chunk.value?, Chunk.routine?, Chunk.label, pure, Except.pure]
  | data slot text =>
      refine except_bind_eq_ok.mpr ⟨_, allocated, except_bind_eq_ok.mpr ⟨_, stored _, ?_⟩⟩
      simp [Memory.withChunk, Chunk.value?, Chunk.routine?, Chunk.label, pure, Except.pure]
  | global slot =>
      refine except_bind_eq_ok.mpr ⟨_, allocated, ?_⟩
      simp [Memory.withChunk, Chunk.value?, Chunk.routine?, Chunk.label, pure, Except.pure]

namespace Memory

/-- The memory with chunks one above the other behind the ones before them. -/
def withChunks (memory : Memory) : Nat → List Chunk → Memory
  | _, [] => memory
  | number, chunk :: rest =>
      (memory.withChunk number chunk).withChunks (number + chunk.routine?.toList.length) rest

@[simp] theorem size_withChunks (memory : Memory) (number : Nat) (chunks : List Chunk) :
    (memory.withChunks number chunks).size = memory.size := by
  induction chunks generalizing memory number with
  | nil => rfl
  | cons chunk rest ih => rw [withChunks, ih, size_withChunk]

section Room

variable {memory : Memory} {number : Nat} {chunk : Chunk} {rest chunks : List Chunk}

/-- Behind a chunk there is room for the ones that follow it. -/
theorem room_withChunk (lower : 0 ≤ memory.staticTop)
    (room : memory.staticTop + staticArea (chunk :: rest) ≤ memoryLimit) :
    (memory.withChunk number chunk).staticTop = memory.staticTop + staticRoom chunk.size ∧
      0 ≤ (memory.withChunk number chunk).staticTop ∧
      (memory.withChunk number chunk).staticTop + staticArea rest ≤ memoryLimit := by
  have chunkRoom := (staticRoom_bounds chunk.size).1
  have above := staticArea_nonneg rest
  rw [staticArea] at room
  unfold Word.size at chunkRoom
  rw [staticTop_withChunk, topAfter_eq_of_room lower (by omega)]
  exact ⟨rfl, by omega, by omega⟩

theorem staticTop_withChunks (lower : 0 ≤ memory.staticTop)
    (room : memory.staticTop + staticArea chunks ≤ memoryLimit) :
    (memory.withChunks number chunks).staticTop = memory.staticTop + staticArea chunks := by
  induction chunks generalizing memory number with
  | nil => rw [withChunks, staticArea, Int.add_zero]
  | cons chunk rest ih =>
      obtain ⟨top, nextLower, nextRoom⟩ := @room_withChunk _ number _ _ lower room
      rw [withChunks, ih nextLower nextRoom, top, staticArea, Int.add_assoc]

/-- Chunks give their labels addresses, and the last one wins. -/
theorem address?_withChunks (lower : 0 ≤ memory.staticTop)
    (room : memory.staticTop + staticArea chunks ≤ memoryLimit) (label : Label) :
    (memory.withChunks number chunks).address? label =
      (addressOf? label (places memory.staticTop number chunks)).or (memory.address? label) := by
  induction chunks generalizing memory number with
  | nil => rfl
  | cons chunk rest ih =>
      obtain ⟨top, nextLower, nextRoom⟩ := @room_withChunk _ number _ _ lower room
      rw [withChunks, ih nextLower nextRoom, top, address?_withChunk, places, addressOf?,
        Option.or_assoc]
      split <;> rfl

end Room

/-- Chunks change nothing but their own first words. -/
theorem read?_withChunks {memory : Memory} {number : Nat} {chunks : List Chunk}
    (lower : 0 ≤ memory.staticTop) (aligned : memory.staticTop % Word.size = 0)
    (room : memory.staticTop + staticArea chunks ≤ memory.size)
    (limited : memory.size ≤ memoryLimit) (address : Int) :
    (memory.withChunks number chunks).read? address =
      (writtenAt? address (places memory.staticTop number chunks)).or (memory.read? address) := by
  induction chunks generalizing memory number with
  | nil => rfl
  | cons chunk rest ih =>
      have chunkRoom := staticRoom_bounds chunk.size
      have above := staticArea_nonneg rest
      obtain ⟨top, nextLower, -⟩ := @room_withChunk _ number _ _ lower (Int.le_trans room limited)
      rw [staticArea] at room
      have valid : memory.isAddress memory.staticTop = true := by
        rw [isAddress_iff]
        unfold Word.size at *
        omega
      have restAligned : (memory.staticTop + staticRoom chunk.size) % Word.size = 0 := by
        unfold Word.size at *
        omega
      rw [withChunks, ih nextLower (by rw [top]; exact restAligned)
        (by rw [top, size_withChunk]; omega) (by rwa [size_withChunk]), top,
        read?_withChunk _ _ _ valid, places, writtenAt?]
      split
      · next same =>
          have behind : writtenAt? address (places (memory.staticTop + staticRoom chunk.size)
              (number + chunk.routine?.toList.length) rest) = none := by
            refine writtenAt?_eq_none fun place member there => ?_
            have bounds := (bounds_of_mem_places member restAligned).1
            unfold Word.size at *
            omega
          rw [behind, Option.none_or]
      · rfl

end Memory

/-- The end of each chunk fits into a word, wherever in a memory the chunk is placed. -/
def SizesFit (chunks : List Chunk) : Prop :=
  ∀ chunk ∈ chunks, memoryLimit + chunk.size + Word.size ≤ 9223372036854775808

instance (chunks : List Chunk) : Decidable (SizesFit chunks) :=
  inferInstanceAs (Decidable (∀ chunk ∈ chunks, _))

theorem sizesFit_of_room {chunks : List Chunk} (room : staticArea chunks ≤ memoryLimit) :
    SizesFit chunks := by
  induction chunks with
  | nil => exact List.forall_mem_nil _
  | cons chunk rest ih =>
      have word := (staticRoom_bounds chunk.size).1
      have above := le_staticRoom chunk.size
      have others := staticArea_nonneg rest
      rw [staticArea] at room
      unfold Word.size at word
      refine List.forall_mem_cons.mpr ⟨?_, ih (by omega)⟩
      unfold memoryLimit at *
      unfold Word.size
      omega

/-- Chunks are placed exactly if there is room for all of them. -/
theorem placeChunks_eq_ok_iff {chunks : List Chunk} {memory memory' : Memory}
    {routines routines' : Array Routine} (lower : 0 ≤ memory.staticTop)
    (aligned : memory.staticTop % Word.size = 0) (start : memory.staticTop ≤ memory.size)
    (limited : memory.size ≤ memoryLimit) (sizes : SizesFit chunks) :
    placeChunks memory routines chunks = .ok (memory', routines') ↔
      memory.staticTop + staticArea chunks ≤ memory.size ∧
        memory' = memory.withChunks routines.size chunks ∧
        routines' = routines ++ (chunks.filterMap Chunk.routine?).toArray := by
  induction chunks generalizing memory routines with
  | nil =>
      simp only [placeChunks, Except.ok.injEq, Prod.mk.injEq, staticArea, Int.add_zero, start,
        true_and, Memory.withChunks, List.filterMap_nil, Array.append_empty]
      constructor
      · rintro ⟨rfl, rfl⟩
        exact ⟨rfl, rfl⟩
      · rintro ⟨rfl, rfl⟩
        exact ⟨rfl, rfl⟩
  | cons chunk rest ih =>
      have chunkRoom := staticRoom_bounds chunk.size
      have above := staticArea_nonneg rest
      have counted : (routines ++ chunk.routine?.toList).size =
          routines.size + chunk.routine?.toList.length := by
        cases chunk.routine? <;> simp
      have behind : routines ++ chunk.routine?.toList ++
            (rest.filterMap Chunk.routine?).toArray =
          routines ++ ((chunk :: rest).filterMap Chunk.routine?).toArray := by
        cases isCode : chunk.routine? <;> simp [isCode]
      obtain ⟨size, sizes⟩ := List.forall_mem_cons.mp sizes
      have top : memory.topAfter chunk.size = memory.staticTop + Memory.staticRoom chunk.size := by
        refine Memory.topAfter_eq lower ?_
        unfold memoryLimit at *
        unfold Word.size at *
        omega
      have next (room : memory.staticTop + Memory.staticRoom chunk.size ≤ memory.size) :=
        @ih (memory.withChunk routines.size chunk) (routines ++ chunk.routine?.toList)
          (by rw [Memory.staticTop_withChunk, top]; unfold Word.size at *; omega)
          (by rw [Memory.staticTop_withChunk, top]; unfold Word.size at *; omega)
          (by rw [Memory.staticTop_withChunk, Memory.size_withChunk, top]; exact room)
          (by rwa [Memory.size_withChunk]) sizes
      simp only [Memory.staticTop_withChunk, Memory.size_withChunk, counted, behind, top] at next
      rw [placeChunks, except_bind_eq_ok, staticArea, Memory.withChunks, ← Int.add_assoc]
      constructor
      · rintro ⟨⟨middle, between⟩, first, others⟩
        obtain ⟨room, rfl, rfl⟩ := placeChunk_eq_ok first
        exact (next (top ▸ room)).mp others
      · intro placed
        have room : memory.staticTop + Memory.staticRoom chunk.size ≤ memory.size := by omega
        have valid : memory.isAddress memory.staticTop = true := by
          rw [Memory.isAddress_iff]
          unfold Word.size at *
          omega
        exact ⟨_, placeChunk_eq valid (top.trans_le room), (next room).mpr placed⟩

/-! ### Loading -/

theorem size_ofSize {size : Int} (positive : 0 < size) (whole : size % Word.size = 0) :
    (Memory.ofSize size).size = size := by
  simp only [Memory.ofSize, Memory.size, Array.size_replicate, Word.size,
    Int.tdiv_eq_ediv_of_nonneg (Int.le_of_lt positive)] at whole ⊢
  omega

/-- A new memory holds zeros. -/
theorem read?_ofSize {size address : Int}
    (valid : (Memory.ofSize size).isAddress address = true) :
    (Memory.ofSize size).read? address = some (.int 0) := by
  have inside := Memory.wordIndex_lt valid
  simp only [Memory.read?, valid, if_true]
  simp only [Memory.ofSize, Array.size_replicate] at inside ⊢
  rw [Array.getElem?_replicate, if_pos inside]

/-- The machine into which chunks are loaded if there is room for them. -/
def ofChunks (chunks : List Chunk) (config : Config) : Machine :=
  withPointers
    ⟨(Memory.ofSize config.memorySize).withChunks 0 chunks,
      (chunks.filterMap Chunk.routine?).toArray, config.randomSource, none, 0, 0⟩
    (config.memorySize - Word.size) (config.memorySize - Word.size)

/-- Chunks whose sizes fit are loaded exactly if the configuration is valid and the static area
fits into the memory. -/
theorem load_eq_ok_iff {chunks : List Chunk} {config : Config} {machine : Machine}
    (sizes : SizesFit chunks) : load chunks config = .ok machine ↔ config.validate = .ok () ∧
      Word.size + staticArea chunks ≤ config.memorySize ∧ machine = ofChunks chunks config := by
  unfold load
  cases valid : config.validate with
  | error problem => simp
  | ok =>
      obtain ⟨positive, whole, limited⟩ := config.validate_eq_ok_iff.mp valid
      have sameSize := size_ofSize positive whole
      have placed {memory : Memory} {routines : Array Routine} :=
        @placeChunks_eq_ok_iff chunks (.ofSize config.memorySize) memory #[] routines
          (show 0 ≤ Word.size by decide) (show Word.size % Word.size = 0 by decide)
          (show Word.size ≤ _ by rw [sameSize]; unfold Word.size at *; omega)
          (by rwa [sameSize]) sizes
      rw [sameSize, Array.empty_append] at placed
      constructor
      · intro loads
        obtain ⟨⟨memory, routines⟩, places, same⟩ := except_bind_eq_ok.mp loads
        obtain ⟨room, rfl, rfl⟩ := placed.mp places
        obtain rfl := Except.ok.inj same
        refine ⟨rfl, room, ?_⟩
        rw [Memory.size_withChunks, sameSize]
        rfl
      · rintro ⟨-, room, rfl⟩
        refine except_bind_eq_ok.mpr ⟨_, placed.mpr ⟨room, rfl, rfl⟩, ?_⟩
        dsimp only
        rw [Memory.size_withChunks, sameSize]
        rfl

section OfChunks

variable (chunks : List Chunk) {config : Config}

theorem address?_ofChunks (valid : config.validate = .ok ())
    (room : Word.size + staticArea chunks ≤ config.memorySize) {label : Label}
    (noFrame : label ≠ .framePointer) (noStack : label ≠ .stackPointer) :
    (ofChunks chunks config).memory.address? label =
      addressOf? label (places Word.size 0 chunks) := by
  obtain ⟨-, -, limited⟩ := config.validate_eq_ok_iff.mp valid
  rw [ofChunks, address?_withPointers, if_neg (Ne.symm noStack), if_neg (Ne.symm noFrame),
    Memory.address?_withChunks (show 0 ≤ Word.size by decide) (Int.le_trans room limited)]
  exact Option.or_none

theorem staticTop_ofChunks (valid : config.validate = .ok ())
    (room : Word.size + staticArea chunks ≤ config.memorySize) :
    (ofChunks chunks config).memory.staticTop = Word.size + staticArea chunks := by
  obtain ⟨-, -, limited⟩ := config.validate_eq_ok_iff.mp valid
  exact Memory.staticTop_withChunks (show 0 ≤ Word.size by decide) (Int.le_trans room limited)

theorem size_ofChunks (valid : config.validate = .ok ()) :
    (ofChunks chunks config).memory.size = config.memorySize := by
  obtain ⟨positive, whole, -⟩ := config.validate_eq_ok_iff.mp valid
  exact (Memory.size_withChunks ..).trans (size_ofSize positive whole)

/-- Loaded chunks have written their first words, and all other words hold zeros. -/
theorem read?_ofChunks {chunks : List Chunk} (valid : config.validate = .ok ())
    (room : Word.size + staticArea chunks ≤ config.memorySize) {address : Int}
    (isAddress : (ofChunks chunks config).memory.isAddress address = true) :
    (ofChunks chunks config).memory.read? address =
      some ((writtenAt? address (places Word.size 0 chunks)).getD (.int 0)) := by
  obtain ⟨positive, whole, limited⟩ := config.validate_eq_ok_iff.mp valid
  have sameSize := size_ofSize positive whole
  have fresh : (Memory.ofSize config.memorySize).isAddress address = true := by
    rw [Memory.isAddress_iff, size_ofChunks chunks valid] at isAddress
    rwa [Memory.isAddress_iff, sameSize]
  have written := @Memory.read?_withChunks (.ofSize config.memorySize) 0 chunks
    (show 0 ≤ Word.size by decide) (show Word.size % Word.size = 0 by decide)
    (show Word.size + _ ≤ _ by rw [sameSize]; exact room) (by rwa [sameSize]) address
  rw [read?_ofSize fresh] at written
  rw [ofChunks, read?_withPointers, written]
  exact Option.or_some

end OfChunks

def Memory.IsBlankFrom (memory : Memory) (address : Int) : Prop :=
  ∀ other, address ≤ other → memory.isAddress other = true →
    memory.read? other = some (.int 0)

/-- A machine in which chunks have been loaded. -/
structure Loaded (chunks : List Chunk) (config : Config) (machine : Machine) : Prop where
  routines : machine.routines = (chunks.filterMap Chunk.routine?).toArray
  size : machine.memory.size = config.memorySize
  staticTop : machine.memory.staticTop = Word.size + staticArea chunks
  label : ∀ place ∈ places Word.size 0 chunks,
    machine.memory.address? place.chunk.label = some place.address
  word : ∀ place ∈ places Word.size 0 chunks,
    machine.memory.read? place.address = some place.word
  points : machine.Points (config.memorySize - Word.size) (config.memorySize - Word.size)
  unknown : ∀ label ∉ chunks.map Chunk.label, label ≠ .framePointer → label ≠ .stackPointer →
    machine.memory.address? label = none
  blank : machine.memory.IsBlankFrom machine.memory.staticTop

theorem Loaded.exists_place {chunks : List Chunk} {config : Config} {machine : Machine}
    (loaded : Loaded chunks config machine) {chunk : Chunk} (member : chunk ∈ chunks) :
    ∃ place ∈ places Word.size 0 chunks, place.chunk = chunk ∧
      machine.memory.address? chunk.label = some place.address ∧
      machine.memory.read? place.address = some place.word := by
  rw [← map_places Word.size 0 chunks] at member
  obtain ⟨place, isThere, rfl⟩ := List.mem_map.mp member
  exact ⟨place, isThere, rfl, loaded.label place isThere, loaded.word place isThere⟩

/-- A place lies in the memory of a loaded machine. -/
theorem isAddress_of_mem_places {chunks : List Chunk} {config : Config} {place : Place}
    (valid : config.validate = .ok ()) (room : Word.size + staticArea chunks ≤ config.memorySize)
    (member : place ∈ places Word.size 0 chunks) :
    (ofChunks chunks config).memory.isAddress place.address = true := by
  have bounds := bounds_of_mem_places member rfl
  rw [Memory.isAddress_iff, size_ofChunks chunks valid]
  unfold Word.size at *
  omega

/-- What a machine looks like after chunks with different labels, none of which is that of a
pointer, have been loaded into it. -/
theorem loaded_of_load {chunks : List Chunk} {config : Config} {machine : Machine}
    (sizes : SizesFit chunks) (loads : load chunks config = .ok machine)
    (distinct : (chunks.map Chunk.label).Nodup)
    (noFrame : Label.framePointer ∉ chunks.map Chunk.label)
    (noStack : Label.stackPointer ∉ chunks.map Chunk.label) :
    config.validate = .ok () ∧ Loaded chunks config machine := by
  obtain ⟨valid, room, rfl⟩ := (load_eq_ok_iff sizes).mp loads
  have outer : ∀ place ∈ places Word.size 0 chunks, place.chunk.label ∈ chunks.map Chunk.label :=
    fun place member => List.mem_map_of_mem (chunk_mem_of_mem_places member)
  refine ⟨valid, rfl, size_ofChunks chunks valid, staticTop_ofChunks chunks valid room, ?_, ?_,
    points_withPointers .., ?_, ?_⟩
  · intro place member
    have labelled := outer place member
    rw [address?_ofChunks chunks valid room (fun same => noFrame (same ▸ labelled))
      (fun same => noStack (same ▸ labelled)), addressOf?_of_mem member distinct]
  · intro place member
    rw [read?_ofChunks valid room (isAddress_of_mem_places valid room member),
      writtenAt?_of_mem member rfl]
    rfl
  · intro label absent notFrame notStack
    rw [address?_ofChunks chunks valid room notFrame notStack, addressOf?_eq_none absent]
  · intro address above isAddress
    have above : Word.size + staticArea chunks ≤ address :=
      (staticTop_ofChunks chunks valid room).symm.trans_le above
    rw [read?_ofChunks valid room isAddress, writtenAt?_eq_none]
    · rfl
    · intro place member same
      have bounds := (bounds_of_mem_places member rfl).2.1
      unfold Word.size at *
      omega

/-- Chunks with different labels, none of which is that of a pointer, are loaded if
their static area fits into the memory. -/
theorem load_eq {chunks : List Chunk} {config : Config} (valid : config.validate = .ok ())
    (room : Word.size + staticArea chunks ≤ config.memorySize)
    (distinct : (chunks.map Chunk.label).Nodup)
    (noFrame : Label.framePointer ∉ chunks.map Chunk.label)
    (noStack : Label.stackPointer ∉ chunks.map Chunk.label) :
    ∃ machine, load chunks config = .ok machine ∧ Loaded chunks config machine := by
  obtain ⟨-, -, limited⟩ := config.validate_eq_ok_iff.mp valid
  have sizes : SizesFit chunks := sizesFit_of_room (by unfold Word.size at room; omega)
  have loads := (load_eq_ok_iff sizes).mpr ⟨valid, room, rfl⟩
  exact ⟨_, loads, (loaded_of_load sizes loads distinct noFrame noStack).2⟩

/-- A label that leads to a function after loading is that of its chunk, whatever other chunks
carry it. -/
theorem exists_code_of_load {chunks : List Chunk} {config : Config} {machine : Machine}
    (sizes : SizesFit chunks) (loads : load chunks config = .ok machine) {label : Label}
    {routine : Routine}
    (noFrame : label ≠ .framePointer) (noStack : label ≠ .stackPointer)
    (found : machine.routine? label = some routine) :
    ∃ frame body, .code frame body ∈ chunks ∧ frame.label = label ∧
      routine = .ofBody frame body := by
  obtain ⟨valid, room, rfl⟩ := (load_eq_ok_iff sizes).mp loads
  unfold Machine.routine? at found
  split at found
  · next number isCode =>
      obtain ⟨address, known, holdsCode⟩ := Option.bind_eq_some_iff.mp isCode
      rw [address?_ofChunks chunks valid room noFrame noStack] at known
      obtain ⟨⟨chunk, address, number⟩, member, isLabel, rfl⟩ := exists_place_of_addressOf? known
      rw [read?_ofChunks valid room (isAddress_of_mem_places valid room member),
        writtenAt?_of_mem member rfl] at holdsCode
      cases chunk with
      | code frame body =>
          obtain rfl := Value.code.inj (Option.some_inj.mp holdsCode)
          have atNumber := @routine?_of_mem_places _ _ _ #[] (.ofBody frame body) member rfl
          rw [Array.empty_append] at atNumber
          exact ⟨frame, body, chunk_mem_of_mem_places member, isLabel,
            Option.some_inj.mp (found.symm.trans atNumber)⟩
      | data | global => cases holdsCode
  · cases found

end TreeBackend.Machine
