import TreeBackend.Proofs.Machine.Agreement
import TreeBackend.Proofs.Machine.Loading
import TreeBackend.Proofs.Machine.Routine
import TreeBackend.Proofs.Machine.Session

/-!
# Jumps by search

The machine looks up in a table where a jump goes on.  It could as well go through the
statements of the function in search of the label.  A run is the same either way, result,
error and all that is left behind, if the search finds the last place of each label; a
search for the first place finds the same unless a label to which a jump goes occurs twice.
-/

namespace TreeBackend

open Flattening (definedLabels)

/-- No jump in the code of a chunk goes to a label that occurs twice there. -/
def IR.Chunk.IsUnambiguous : Chunk → Prop
  | .code _ (.seq items) =>
      ∀ statement ∈ items, ∀ target ∈ statement.targets, (definedLabels items).count target ≤ 1
  | _ => True

instance : (chunk : IR.Chunk) → Decidable chunk.IsUnambiguous
  | .code _ (.seq items) => inferInstanceAs (Decidable (∀ statement ∈ items,
      ∀ target ∈ statement.targets, (definedLabels items).count target ≤ 1))
  | .code _ (.label _) | .code _ (.jump _) | .code _ (.cjump ..) | .code _ (.exp _)
  | .code _ (.move ..) | .data .. | .global _ => .isTrue trivial

namespace Machine

open IR (Stmt Chunk)

/-! ### Searching for a label -/

/-- The first place of a label among statements that are counted from a position on. -/
def firstPlace (label : Label) : Nat → List Stmt → Option Nat
  | _, [] => none
  | position, .label place :: rest =>
      if place = label then some position else firstPlace label (position + 1) rest
  | position, _ :: rest => firstPlace label (position + 1) rest

/-- The last place of a label among statements that are counted from a position on. -/
def lastPlace (label : Label) : Nat → List Stmt → Option Nat
  | _, [] => none
  | position, .label place :: rest =>
      (lastPlace label (position + 1) rest).or (if place = label then some position else none)
  | position, _ :: rest => lastPlace label (position + 1) rest

theorem get?_foldl_labelPositions (label : Label) (position : Nat) (items : List Stmt)
    (table : Table Label Nat) :
    ((Routine.labelPositions position items).foldl
      (fun table entry => table.insert entry.1 entry.2) table).get? label =
        (lastPlace label position items).or (table.get? label) := by
  induction items generalizing position table with
  | nil => rfl
  | cons statement rest ih =>
      cases statement with
      | label place =>
          rw [Routine.labelPositions, List.foldl_cons, ih, lastPlace, Table.get?_insert]
          cases lastPlace label (position + 1) rest <;> by_cases here : place = label <;>
            simp [here]
      | seq | jump | cjump | exp | move => exact ih (position + 1) table

theorem get?_jumpsOf (label : Label) (items : List Stmt) :
    (Routine.jumpsOf items).get? label = lastPlace label 0 items := by
  rw [Routine.jumpsOf, Table.ofList, get?_foldl_labelPositions, Table.get?_empty, Option.or_none]

theorem lastPlace_eq_none {label : Label} {items : List Stmt} (position : Nat)
    (absent : label ∉ definedLabels items) : lastPlace label position items = none := by
  induction items generalizing position with
  | nil => rfl
  | cons statement rest ih =>
      cases statement with
      | label place =>
          rw [definedLabels, List.mem_cons, not_or] at absent
          rw [lastPlace, ih _ absent.2, if_neg (Ne.symm absent.1), Option.none_or]
      | seq | jump | cjump | exp | move => exact ih (position + 1) absent

theorem firstPlace_eq_lastPlace {label : Label} {items : List Stmt} (position : Nat)
    (once : (definedLabels items).count label ≤ 1) :
    firstPlace label position items = lastPlace label position items := by
  induction items generalizing position with
  | nil => rfl
  | cons statement rest ih =>
      cases statement with
      | label place =>
          rw [definedLabels, List.count_cons] at once
          rw [firstPlace, lastPlace]
          by_cases here : place = label
          · have absent : label ∉ definedLabels rest := by
              rw [← List.count_eq_zero]
              simp only [here, beq_self_eq_true, if_true] at once
              omega
            rw [lastPlace_eq_none _ absent, if_pos here, Option.none_or, if_pos here]
          · rw [if_neg here, if_neg here, Option.or_none]
            exact ih _ (by omega)
      | seq | jump | cjump | exp | move => exact ih (position + 1) once

/-! ### Runs -/

/-- A search for a label among statements that are counted from a position on. -/
abbrev Search := Label → Nat → List Stmt → Option Nat

def scanFrom (find : Search) : (fuel : Nat) → Array Stmt → Nat → Temps → Exec Unit
  | 0, _, _, _ => throw .outOfFuel
  | fuel + 1, statements, position, temps => do
      match statements[position]? with
      | none => pure ()
      | some statement =>
          let body := fun statements _ => scanFrom find fuel statements 0 {}
          let next ← execute (callLabel body) temps statement
          match next.jump with
          | none => scanFrom find fuel statements (position + 1) next.temps
          | some label =>
              match find label 0 statements.toList with
              | some target => scanFrom find fuel statements target next.temps
              | none => raise (.unknownJumpTarget label)

/-- Runs the function of a label as the outermost one, with a search at each jump. -/
def interpretScanning (find : Search) (fuel : Nat) (entry : Label) : Exec Int := do
  match (← get).routine? entry with
  | none => raise (.missingEntry entry)
  | some routine => do
      storeInt (← get).stackPointer 0
      invoke (fun statements _ => scanFrom find fuel statements 0 {}) routine
      loadInt (← get).stackPointer

def Search.Resolves (find : Search) (routine : Routine) : Prop :=
  ∀ jumps, routine.jumps? = some jumps → ∀ statement ∈ routine.statements,
    ∀ label ∈ statement.targets, jumps.get? label = find label 0 routine.statements.toList

section Runs

variable {find : Search} {routines : Array Routine}

/-- If a search resolves the jumps of all functions, then the rest of a body runs in the same
way with it. -/
theorem runFrom_agrees (resolves : ∀ routine ∈ routines, find.Resolves routine) (fuel : Nat)
    {routine : Routine} (member : routine ∈ routines) {jumps : Table Label Nat}
    (flat : routine.jumps? = some jumps) (position : Nat) (temps : Temps) :
    Agrees routines (runFrom fuel routine.statements jumps position temps)
      (scanFrom find fuel routine.statements position temps) := by
  induction fuel generalizing routine jumps position temps with
  | zero => exact .fails _
  | succ fuel ih =>
      have calls : CallsAgree routines
          (callLabel fun statements jumps => runFrom fuel statements jumps 0 {})
          (callLabel fun statements _ => scanFrom find fuel statements 0 {}) :=
        callLabel_agrees fun callee isThere jumps flat => ih isThere flat 0 {}
      unfold runFrom scanFrom
      cases found : routine.statements[position]? with
      | none => exact .pure trivial
      | some statement =>
          refine (execute_agree calls statement).bind fun next isTarget => ?_
          cases jumped : next.jump with
          | none => exact ih member flat _ _
          | some label =>
              have same := resolves routine member jumps flat statement
                (Array.mem_of_getElem? found) label (isTarget label jumped)
              dsimp only
              rw [← same]
              cases jumps.get? label with
              | none => exact .fails _
              | some target => exact ih member flat _ _

theorem interpret_agrees (resolves : ∀ routine ∈ routines, find.Resolves routine) (fuel : Nat)
    (entry : Label) :
    Agrees routines (interpret fuel entry) (interpretScanning find fuel entry) := by
  unfold interpret interpretScanning
  refine Agree.get.bind fun machine same => ?_
  cases found : machine.routine? entry with
  | none => exact .fails _
  | some routine =>
      have member : routine ∈ routines := same ▸ mem_of_routine? found
      have bodies : BodiesAgree routines (fun statements jumps => runFrom fuel statements jumps 0 {})
          fun statements _ => scanFrom find fuel statements 0 {} :=
        fun callee isThere jumps flat => runFrom_agrees resolves fuel isThere flat 0 {}
      exact Agree.get.bind fun _ _ => (agrees_storeInt _ _).bind fun _ _ =>
        (invoke_agrees bodies member).bind fun _ _ => Agree.get.bind fun _ _ => agrees_loadInt _

end Runs

/-! ### Loaded programs -/

/-- A search for the last place of a label finds what the table of a function has. -/
theorem resolves_lastPlace (frame : Frame) (body : Stmt) :
    Search.Resolves lastPlace (.ofBody frame body) := by
  intro jumps flat statement _ label _
  cases body with
  | seq items =>
      obtain ⟨-, same⟩ := Option.ite_none_right_eq_some.mp flat
      obtain rfl := Option.some_inj.mp same
      exact get?_jumpsOf label items
  | label | jump | cjump | exp | move => cases flat

/-- If no jump goes to a label that occurs twice, then a search for the first place of a label
finds the same. -/
theorem resolves_firstPlace {frame : Frame} {body : Stmt}
    (unambiguous : (Chunk.code frame body).IsUnambiguous) :
    Search.Resolves firstPlace (.ofBody frame body) := by
  intro jumps flat statement member label isTarget
  rw [resolves_lastPlace frame body jumps flat statement member label isTarget]
  cases body with
  | seq items =>
      have inItems : statement ∈ items := List.mem_toArray.mp member
      exact (firstPlace_eq_lastPlace 0 (unambiguous statement inItems label isTarget)).symm
  | label | jump | cjump | exp | move => cases flat

section Loaded

variable {chunks : List Chunk} {config : Config} {machine later : Machine}

/-- A session leaves the functions of a machine alone. -/
theorem Session.routines_eq (session : machine.Session later)
    (loaded : load chunks config = .ok machine) : later.routines = machine.routines := by
  have resolves : ∀ routine ∈ machine.routines, Search.Resolves lastPlace routine := by
    intro routine member
    obtain ⟨frame, body, -, rfl⟩ := exists_code_of_mem_routines loaded member
    exact resolves_lastPlace frame body
  induction session with
  | start => rfl
  | call _ done ih => exact (interpret_agrees resolves _ _).routines_eq ih done
  | @failedCall later final fuel entry reason _ failed ih =>
      rcases interpret_agrees resolves fuel entry later ih with
        ⟨_, _, done, -⟩ | ⟨_, _, same, -, kept⟩
      · cases failed.symm.trans done
      · cases failed.symm.trans same
        exact kept
  | redirect _ _ ih => exact ih
  | overwrite _ _ _ ih => exact ih

/-- A run is the same if each jump searches for the last place of its label, and the same again
if it searches for the first place, unless a jump goes to a label that occurs twice. -/
theorem interpret_eq_interpretScanning (loaded : load chunks config = .ok machine)
    (session : machine.Session later) (fuel : Nat) (entry : Label) :
    interpret fuel entry later = interpretScanning lastPlace fuel entry later ∧
    ((∀ chunk ∈ chunks, chunk.IsUnambiguous) →
      interpret fuel entry later = interpretScanning firstPlace fuel entry later) := by
  have routines := session.routines_eq loaded
  constructor
  · refine (interpret_agrees (fun routine member => ?_) fuel entry).eq routines
    obtain ⟨frame, body, -, rfl⟩ := exists_code_of_mem_routines loaded member
    exact resolves_lastPlace frame body
  · intro unambiguous
    refine (interpret_agrees (fun routine member => ?_) fuel entry).eq routines
    obtain ⟨frame, body, isThere, rfl⟩ := exists_code_of_mem_routines loaded member
    exact resolves_firstPlace (unambiguous _ isThere)

/-- A function that adds two to its result in each of three rounds, called once more after a
first call. -/
theorem interpret_eq_interpretScanning_loop :
    let temp : IR.Expr := .temp ⟨0⟩
    let items : List Stmt :=
      [.move temp (.const 3), .label (.anonymous 0),
        .cjump temp (.anonymous 1) (.anonymous 2), .label (.anonymous 1),
        .move (.mem .framePointer) (.binop .add (.mem .framePointer) (.const 2)),
        .move temp (.binop .sub temp (.const 1)), .jump (.anonymous 0), .label (.anonymous 2)]
    let chunks : List Chunk := [.code { label := mainLabel, level := 1 } (.seq items)]
    (∀ chunk ∈ chunks, chunk.IsUnambiguous) ∧
      ∃ machine later last, load chunks { memorySize := 64 } = .ok machine ∧
        machine.Session later ∧ interpret 100 mainLabel later = .ok 6 last ∧
        interpretScanning lastPlace 100 mainLabel later = .ok 6 last ∧
        interpretScanning firstPlace 100 mainLabel later = .ok 6 last := by
  intro temp items chunks
  have unambiguous : ∀ chunk ∈ chunks, chunk.IsUnambiguous := by decide
  have runs : (do
      let machine ← (load chunks { memorySize := 64 }).toOption
      let (_, later) ← Outcome.ok? (interpret 100 mainLabel machine)
      let (result, _) ← Outcome.ok? (interpret 100 mainLabel later)
      some result) = some 6 := by decide +kernel
  obtain ⟨machine, loaded, runs⟩ := Option.bind_eq_some_iff.mp runs
  obtain ⟨⟨_, later⟩, first, runs⟩ := Option.bind_eq_some_iff.mp runs
  obtain ⟨⟨_, last⟩, second, same⟩ := Option.bind_eq_some_iff.mp runs
  obtain rfl := Option.some_inj.mp same
  simp only [toOption_eq_some_iff, Outcome.ok?_eq_some_iff] at loaded first second
  have session : machine.Session later := .call .start first
  obtain ⟨atLast, atFirst⟩ := interpret_eq_interpretScanning loaded session 100 mainLabel
  exact ⟨unambiguous, machine, later, last, loaded, session, second, atLast.symm.trans second,
    (atFirst unambiguous).symm.trans second⟩

/-- If a label occurs twice, then the search for its first place finds another one than the
table has. -/
theorem interpret_jumps_to_last_place :
    let items : List Stmt :=
      [.jump (.anonymous 0), .label (.anonymous 0), .move (.mem .framePointer) (.const 1),
        .jump (.anonymous 1), .label (.anonymous 0), .move (.mem .framePointer) (.const 2),
        .label (.anonymous 1)]
    let chunks : List Chunk := [.code { label := mainLabel, level := 1 } (.seq items)]
    (Stmt.seq items).isFlat = true ∧
      ∃ machine, load chunks { memorySize := 64 } = .ok machine ∧
        (∃ last, interpret 100 mainLabel machine = .ok 2 last) ∧
        (∃ last, interpretScanning firstPlace 100 mainLabel machine = .ok 1 last) ∧
        interpret 100 mainLabel machine ≠ interpretScanning firstPlace 100 mainLabel machine := by
  intro items chunks
  have runs : (do
      let machine ← (load chunks { memorySize := 64 }).toOption
      let (result, _) ← Outcome.ok? (interpret 100 mainLabel machine)
      let (scanned, _) ← Outcome.ok? (interpretScanning firstPlace 100 mainLabel machine)
      some (result, scanned)) = some (2, 1) := by decide +kernel
  obtain ⟨machine, loaded, runs⟩ := Option.bind_eq_some_iff.mp runs
  obtain ⟨⟨_, last⟩, ran, runs⟩ := Option.bind_eq_some_iff.mp runs
  obtain ⟨⟨_, scannedLast⟩, scanned, same⟩ := Option.bind_eq_some_iff.mp runs
  obtain ⟨rfl, rfl⟩ := Prod.mk.inj (Option.some_inj.mp same)
  simp only [toOption_eq_some_iff, Outcome.ok?_eq_some_iff] at loaded ran scanned
  refine ⟨by decide, machine, loaded, ⟨last, ran⟩, ⟨scannedLast, scanned⟩, ?_⟩
  rw [ran, scanned]
  intro same
  cases same

end Loaded

end Machine

end TreeBackend
