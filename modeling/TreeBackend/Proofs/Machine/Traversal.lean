import TreeBackend.Proofs.Flattening.Discipline
import TreeBackend.Proofs.Flattening.Labels
import TreeBackend.Proofs.Machine.Invocation
import TreeBackend.Proofs.Machine.Leads

/-!
# Runs through a piece of code

A run goes through a piece of code if it enters at the first statement, stays among the
statements of the piece, and ends at the place behind the last one.  If the jumps of a piece
stay inside, then there is no other way out, so a run through two pieces in a row is a run
through the first one followed by a run through the second one.  Each of them is gone through
once.
-/

namespace TreeBackend.Machine

open IR (Expr Stmt Temp)
open Flattening (JumpsInside)

theorem mem_exits_of_execute {call : Label → List Int → Exec Int} {temps : Temps}
    {statement : Stmt} {machine machine' : Machine} {next : Continuation} {label : Label}
    (executed : execute call temps statement machine = .ok next machine')
    (jumps : next.jump = some label) : label ∈ statement.exits := by
  match statement with
  | .label _ =>
      obtain ⟨rfl, -⟩ := execute_label_eq_ok.mp executed
      cases jumps
  | .jump target =>
      obtain ⟨rfl, -⟩ := execute_jump_eq_ok.mp executed
      obtain rfl := Option.some_inj.mp jumps
      exact List.mem_singleton_self _
  | .cjump condition whenTrue whenFalse =>
      obtain ⟨test, -, rfl⟩ := execute_cjump_eq_ok.mp executed
      obtain rfl := Option.some_inj.mp jumps
      by_cases isZero : test = 0 <;> simp [isZero, Stmt.exits]
  | .exp value =>
      obtain ⟨_, -, rfl⟩ := execute_exp_eq_ok.mp executed
      cases jumps
  | .move (.temp _) source =>
      obtain ⟨_, -, rfl⟩ := execute_move_temp_eq_ok.mp executed
      cases jumps
  | .move (.mem address) source =>
      obtain ⟨_, _, _, _, -, -, -, -, rfl⟩ := execute_move_mem_eq_ok.mp executed
      cases jumps
  | .move (.const _) _ | .move (.name _) _ | .move (.binop ..) _ | .move (.call ..) _
  | .move (.eseq ..) _ | .seq _ => exact (Outcome.throw_ne_ok executed).elim

/-- A statement leaves a temporary alone that it does not assign. -/
theorem get?_of_execute {call : Label → List Int → Exec Int} {temps : Temps}
    {statement : Stmt} {machine machine' : Machine} {next : Continuation} {temp : Temp}
    (executed : execute call temps statement machine = .ok next machine')
    (spared : ∀ source, statement ≠ .move (.temp temp) source) :
    next.temps.get? temp = temps.get? temp := by
  match statement with
  | .label _ =>
      obtain ⟨rfl, -⟩ := execute_label_eq_ok.mp executed
      rfl
  | .jump _ =>
      obtain ⟨rfl, -⟩ := execute_jump_eq_ok.mp executed
      rfl
  | .cjump .. =>
      obtain ⟨_, -, rfl⟩ := execute_cjump_eq_ok.mp executed
      rfl
  | .exp _ =>
      obtain ⟨_, -, rfl⟩ := execute_exp_eq_ok.mp executed
      rfl
  | .move (.temp other) source =>
      obtain ⟨_, -, rfl⟩ := execute_move_temp_eq_ok.mp executed
      have differ : other ≠ temp := by
        rintro rfl
        exact spared source rfl
      rw [Table.get?_insert, if_neg differ]
  | .move (.mem _) _ =>
      obtain ⟨_, _, _, _, -, -, -, -, rfl⟩ := execute_move_mem_eq_ok.mp executed
      rfl
  | .move (.const _) _ | .move (.name _) _ | .move (.binop ..) _ | .move (.call ..) _
  | .move (.eseq ..) _ | .seq _ => exact (Outcome.throw_ne_ok executed).elim

/-! ### Calls that give the pointers back -/

/-- Whenever a label is called, and the call returns, no label has moved. -/
def GivesBack (call : Label → List Int → Exec Int) (label : Label) : Prop :=
  ∀ values machine result machine',
    call label values machine = .ok result machine' → SameLabels machine machine'

/-- Builtins print and draw numbers, and leave memory alone. -/
theorem givesBack_builtin (body : Array Stmt → Table Label Nat → Exec Unit) (builtin : Builtin) :
    GivesBack (callLabel body) (.named builtin.name) := by
  intro values machine result machine' called
  rcases callLabel_eq_ok called with ⟨other, called⟩ | ⟨noBuiltin, -⟩
  · obtain ⟨random, output, rfl⟩ := callBuiltin_eq_ok called
    exact fun _ => rfl
  · cases (noBuiltin _ rfl).symm.trans (Builtin.ofName?_eq_some_iff.mpr rfl)

section Steady

variable {call : Label → List Int → Exec Int} {temps : Temps}

mutual

theorem sameLabels_of_eval : (expression : Expr) → {machine machine' : Machine} →
    {result : Int} → (∀ made ∈ expression.calls, GivesBack call made.1) →
    eval call temps expression machine = .ok result machine' → SameLabels machine machine'
  | .const _, _, _, _, _, evaluated => by
      obtain ⟨-, rfl⟩ := eval_const_eq_ok.mp evaluated
      exact .refl _
  | .name _, _, _, _, _, evaluated => by
      rw [eval_name] at evaluated
      obtain ⟨-, rfl⟩ := labelAddress_eq_ok.mp evaluated
      exact .refl _
  | .temp _, _, _, _, _, evaluated => by
      rw [eval_temp] at evaluated
      obtain ⟨-, rfl⟩ := readTemp_eq_ok.mp evaluated
      exact .refl _
  | .mem address, _, _, _, back, evaluated => by
      obtain ⟨_, places, -⟩ := eval_mem_eq_ok.mp evaluated
      exact sameLabels_of_eval address back places
  | .binop _ left right, _, _, _, back, evaluated => by
      obtain ⟨_, _, _, lefts, rights, -⟩ := eval_binop_eq_ok.mp evaluated
      obtain ⟨leftBack, rightBack⟩ := List.forall_mem_append.mp back
      exact (sameLabels_of_eval left leftBack lefts).trans
        (sameLabels_of_eval right rightBack rights)
  | .call _ arguments, _, _, _, back, evaluated => by
      obtain ⟨_, _, evaluates, called⟩ := eval_call_eq_ok.mp evaluated
      obtain ⟨here, inside⟩ := List.forall_mem_cons.mp back
      exact (sameLabels_of_evalAll arguments inside evaluates).trans (here _ _ _ _ called)
  | .eseq .., _, _, _, _, evaluated => (Outcome.throw_ne_ok evaluated).elim

theorem sameLabels_of_evalAll : (expressions : List Expr) → {machine machine' : Machine} →
    {values : List Int} → (∀ made ∈ Expr.callsOfList expressions, GivesBack call made.1) →
    evalAll call temps expressions machine = .ok values machine' → SameLabels machine machine'
  | [], _, _, _, _, evaluated => by
      obtain ⟨-, rfl⟩ := evalAll_nil_eq_ok.mp evaluated
      exact .refl _
  | expression :: rest, _, _, _, back, evaluated => by
      obtain ⟨_, _, _, first, others, -⟩ := evalAll_cons_eq_ok.mp evaluated
      obtain ⟨firstBack, restBack⟩ := List.forall_mem_append.mp back
      exact (sameLabels_of_eval expression firstBack first).trans
        (sameLabels_of_evalAll rest restBack others)

end

theorem sameLabels_of_execute {statement : Stmt} {machine machine' : Machine}
    {next : Continuation} (back : ∀ made ∈ statement.calls, GivesBack call made.1)
    (executed : execute call temps statement machine = .ok next machine') :
    SameLabels machine machine' := by
  match statement with
  | .label _ =>
      obtain ⟨-, rfl⟩ := execute_label_eq_ok.mp executed
      exact .refl _
  | .jump _ =>
      obtain ⟨-, rfl⟩ := execute_jump_eq_ok.mp executed
      exact .refl _
  | .cjump condition _ _ =>
      obtain ⟨_, tested, -⟩ := execute_cjump_eq_ok.mp executed
      exact sameLabels_of_eval condition back tested
  | .exp value =>
      obtain ⟨_, evaluated, -⟩ := execute_exp_eq_ok.mp executed
      exact sameLabels_of_eval value back evaluated
  | .move (.temp _) source =>
      obtain ⟨_, evaluated, -⟩ := execute_move_temp_eq_ok.mp executed
      exact sameLabels_of_eval source back evaluated
  | .move (.mem address) source =>
      obtain ⟨_, _, _, _, places, values, -, rfl, -⟩ := execute_move_mem_eq_ok.mp executed
      obtain ⟨placeBack, valueBack⟩ := List.forall_mem_append.mp back
      have computed := (sameLabels_of_eval address placeBack places).trans
        (sameLabels_of_eval source valueBack values)
      exact computed.trans fun _ => rfl
  | .move (.const _) _ | .move (.name _) _ | .move (.binop ..) _ | .move (.call ..) _
  | .move (.eseq ..) _ | .seq _ => exact (Outcome.throw_ne_ok executed).elim

end Steady

namespace Code

variable {code : Code}

/-- One statement leads from a point to the next one, with some amount of fuel for the calls
in it. -/
inductive Moves (code : Code) : Point → Point → Prop where
  | next {fuel position : Nat} {statement : Stmt} {temps temps' : Temps}
      {machine machine' : Machine} :
      code.statements[position]? = some statement →
      execute (code.calls fuel) temps statement machine = .ok ⟨none, temps'⟩ machine' →
      Moves code ⟨position, temps, machine⟩ ⟨position + 1, temps', machine'⟩
  | jump {fuel position target : Nat} {statement : Stmt} {label : Label} {temps temps' : Temps}
      {machine machine' : Machine} :
      code.statements[position]? = some statement →
      execute (code.calls fuel) temps statement machine = .ok ⟨some label, temps'⟩ machine' →
      code.jumps.get? label = some target →
      Moves code ⟨position, temps, machine⟩ ⟨target, temps', machine'⟩

/-- A statement from one position up to, but without, another one is run.  Its calls give the
pointers back. -/
structure MovesWithin (code : Code) (first last : Nat) (point next : Point) : Prop where
  above : first ≤ point.position
  below : point.position < last
  moves : code.Moves point next
  labels : SameLabels point.machine next.machine

/-- A run that stays from one position up to, but without, another one until it ends. -/
abbrev RunsWithin (code : Code) (first last : Nat) : Point → Point → Prop :=
  Relation.ReflTransGen (code.MovesWithin first last)

/-- A run goes through a piece of code that stands at a position. -/
structure Traverses (code : Code) (position : Nat) (piece : List Stmt) (temps : Temps)
    (machine : Machine) (temps' : Temps) (machine' : Machine) : Prop where
  placed : code.Placed position piece
  runs : code.RunsWithin position (position + piece.length) ⟨position, temps, machine⟩
    ⟨position + piece.length, temps', machine'⟩

/-- A run goes through the statements of an expression, whose value is then computed. -/
structure Computes (code : Code) (position : Nat) (flat : Flattened) (temps : Temps)
    (machine : Machine) (value : Int) (temps' : Temps) (machine' : Machine) : Prop where
  result : ∃ middle fuel, code.Traverses position flat.before temps machine temps' middle ∧
    eval (code.calls fuel) temps' flat.value middle = .ok value machine'

section Splitting

variable {position : Nat} {piece first second : List Stmt} {point next final : Point}
  {temps temps' : Temps} {machine machine' : Machine}

/-- A piece of code stands at a position, and jumps to its labels stay inside.  Unlike in a piece
that is placed, a label may stand there twice. -/
structure Stands (code : Code) (position : Nat) (piece : List Stmt) : Prop where
  statement : ∀ {index statement}, piece[index]? = some statement →
    code.statements[position + index]? = some statement
  target : ∀ {label place}, .label label ∈ piece → code.jumps.get? label = some place →
    ∃ index, place = position + index ∧ piece[index]? = some (.label label)

theorem Placed.stands (placed : code.Placed position piece) : code.Stands position piece where
  statement := placed.statement
  target member found := by
    obtain ⟨index, inBounds, isLabel⟩ := List.getElem_of_mem member
    have isThere := List.getElem?_eq_some_iff.mpr ⟨inBounds, isLabel⟩
    exact ⟨index, Option.some_inj.mp (found.symm.trans (placed.target isThere)), isThere⟩

/-- What is run inside a piece is a statement of it. -/
theorem Stands.mem_of_statement (stands : code.Stands position piece) {place : Nat}
    {statement : Stmt} (above : position ≤ place) (below : place < position + piece.length)
    (found : code.statements[place]? = some statement) : statement ∈ piece := by
  obtain ⟨index, rfl⟩ := Nat.exists_eq_add_of_le above
  have inside : index < piece.length := by omega
  have there := stands.statement (List.getElem?_eq_getElem inside)
  obtain rfl := Option.some_inj.mp (there.symm.trans found)
  exact List.getElem_mem inside

theorem Moves.lands (moves : code.Moves point next) (stands : code.Stands position piece)
    (inside : JumpsInside piece) (above : position ≤ point.position)
    (below : point.position < position + piece.length) :
    position ≤ next.position ∧ (next.position = point.position + 1 ∨
      next.position < position + piece.length) := by
  cases moves with
  | next found executed => exact ⟨Nat.le_succ_of_le above, .inl rfl⟩
  | jump found executed known =>
      have member := stands.mem_of_statement above below found
      have isThere := inside _ member _ (mem_exits_of_execute executed rfl)
      obtain ⟨index, rfl, found⟩ := stands.target isThere known
      have inBounds := (List.getElem?_eq_some_iff.mp found).1
      exact ⟨Nat.le_add_right _ _, .inr (Nat.add_lt_add_left inBounds _)⟩

/-- A run through two pieces in a row, of steps that stay inside them, comes by the place between
them, and does not come back. -/
theorem exists_between {steps : Point → Point → Prop} (firstStands : code.Stands position first)
    (secondStands : code.Stands (position + first.length) second)
    (firstInside : JumpsInside first) (secondInside : JumpsInside second)
    (isStep : ∀ {point next}, steps point next → position ≤ point.position ∧
      point.position < position + first.length + second.length ∧ code.Moves point next)
    (runs : Relation.ReflTransGen steps point final)
    (below : point.position ≤ position + first.length)
    (atEnd : final.position = position + first.length + second.length) :
    ∃ between, between.position = position + first.length ∧
      Relation.ReflTransGen
        (fun point next => steps point next ∧ point.position < position + first.length)
        point between ∧
      Relation.ReflTransGen
        (fun point next => steps point next ∧ position + first.length ≤ point.position)
        between final := by
  have stays {point : Point} (runs : Relation.ReflTransGen steps point final)
      (above : position + first.length ≤ point.position) : Relation.ReflTransGen
        (fun point next => steps point next ∧ position + first.length ≤ point.position)
        point final := by
    induction runs using Relation.ReflTransGen.head_induction_on with
    | refl => exact .refl
    | head step _ ih =>
        obtain ⟨-, below, moves⟩ := isStep step
        exact .head ⟨step, above⟩ (ih (moves.lands secondStands secondInside above below).1)
  induction runs using Relation.ReflTransGen.head_induction_on with
  | refl => exact ⟨final, by omega, .refl, .refl⟩
  | head step rest ih =>
      rcases below.lt_or_eq with before | arrived
      · obtain ⟨above, -, moves⟩ := isStep step
        obtain ⟨-, upper⟩ := moves.lands firstStands firstInside above before
        obtain ⟨between, there, early, late⟩ := ih (by omega)
        exact ⟨between, there, .head ⟨step, before⟩ early, late⟩
      · exact ⟨_, arrived, .refl, stays (.head step rest) arrived.ge⟩

/-- A run through a statement that does not jump, of steps that stay there, runs it. -/
theorem exists_execute_of_runs {steps : Point → Point → Prop} {statement : Stmt}
    (stands : code.Stands position [statement])
    (isStep : ∀ {point next}, steps point next → point.position < position + 1 ∧
      code.Moves point next)
    (runs : Relation.ReflTransGen steps ⟨position, temps, machine⟩
      ⟨position + 1, temps', machine'⟩)
    (straight : statement.exits = []) :
    ∃ fuel, execute (code.calls fuel) temps statement machine = .ok ⟨none, temps'⟩ machine' := by
  have isHead : code.statements[position]? = some statement :=
    @Stands.statement _ _ _ stands 0 _ rfl
  rcases Relation.ReflTransGen.cases_head runs with same | ⟨next, step, rest⟩
  · have positions := congrArg Point.position same
    simp at positions
  · obtain ⟨-, moves⟩ := isStep step
    cases moves with
    | @next fuel _ _ _ _ _ _ found executed =>
        obtain rfl := Option.some_inj.mp (isHead.symm.trans found)
        rcases Relation.ReflTransGen.cases_head rest with same | ⟨_, further, -⟩
        · cases same
          exact ⟨fuel, executed⟩
        · exact absurd (isStep further).1 (Nat.lt_irrefl _)
    | jump found executed =>
        obtain rfl := Option.some_inj.mp (isHead.symm.trans found)
        have isExit := mem_exits_of_execute executed rfl
        rw [straight] at isExit
        cases isExit

/-- A run of steps in a piece leaves a temporary alone that no statement there assigns. -/
theorem get?_of_runs {steps : Point → Point → Prop} {temp : Temp}
    (stands : code.Stands position piece)
    (isStep : ∀ {point next}, steps point next → position ≤ point.position ∧
      point.position < position + piece.length ∧ code.Moves point next)
    (runs : Relation.ReflTransGen steps point final)
    (spared : ∀ source, .move (.temp temp) source ∉ piece) :
    final.temps.get? temp = point.temps.get? temp := by
  induction runs with
  | refl => rfl
  | tail _ step ih =>
      obtain ⟨above, below, moves⟩ := isStep step
      rw [← ih]
      cases moves with
      | next found executed | jump found executed =>
          have member := stands.mem_of_statement above below found
          exact get?_of_execute executed fun source same => spared source (same ▸ member)

namespace Traverses

theorem empty (temps : Temps) (machine : Machine) :
    code.Traverses position [] temps machine temps machine :=
  ⟨⟨nofun, nofun⟩, .refl⟩

/-- A run through two pieces in a row goes through each of them once. -/
theorem split (traverses : code.Traverses position (first ++ second) temps machine temps' machine')
    (firstInside : JumpsInside first) (secondInside : JumpsInside second) :
    ∃ middle between, code.Traverses position first temps machine middle between ∧
      code.Traverses (position + first.length) second middle between temps' machine' := by
  obtain ⟨placed, runs⟩ := traverses
  rw [List.length_append, ← Nat.add_assoc] at runs
  obtain ⟨⟨_, middle, between⟩, rfl, early, late⟩ := exists_between placed.left.stands
    placed.right.stands firstInside secondInside
    (fun moves => ⟨moves.above, moves.below, moves.moves⟩) runs (Nat.le_add_right _ _) rfl
  refine ⟨middle, between, ⟨placed.left, ?_⟩, placed.right, ?_⟩
  · exact Relation.ReflTransGen.mono
      (fun _ _ ⟨moves, below⟩ => ⟨moves.above, below, moves.moves, moves.labels⟩) _ _ early
  · exact Relation.ReflTransGen.mono
      (fun _ _ ⟨moves, above⟩ => ⟨above, moves.below, moves.moves, moves.labels⟩) _ _ late

theorem of_nil (traverses : code.Traverses position [] temps machine temps' machine') :
    temps' = temps ∧ machine' = machine := by
  rcases Relation.ReflTransGen.cases_head traverses.runs with same | ⟨next, moves, -⟩
  · cases same
    exact ⟨rfl, rfl⟩
  · exact absurd moves.below (Nat.not_lt.mpr moves.above)

/-- A run through a statement that does not jump runs it. -/
theorem of_single {statement : Stmt}
    (traverses : code.Traverses position [statement] temps machine temps' machine')
    (straight : statement.exits = []) :
    ∃ fuel, execute (code.calls fuel) temps statement machine = .ok ⟨none, temps'⟩ machine' :=
  exists_execute_of_runs traverses.placed.stands (fun moves => ⟨moves.below, moves.moves⟩)
    traverses.runs straight

theorem labels (traverses : code.Traverses position piece temps machine temps' machine') :
    SameLabels machine machine' := by
  have along : ∀ {point final : Point},
      code.RunsWithin position (position + piece.length) point final →
      SameLabels point.machine final.machine := by
    intro point final runs
    induction runs with
    | refl => exact .refl _
    | tail _ moves ih => exact ih.trans moves.labels
  exact along traverses.runs

/-- A run leaves a temporary alone that no statement assigns. -/
theorem get?_temp (traverses : code.Traverses position piece temps machine temps' machine')
    {temp : Temp} (spared : ∀ source, .move (.temp temp) source ∉ piece) :
    temps'.get? temp = temps.get? temp :=
  get?_of_runs traverses.placed.stands (fun moves => ⟨moves.above, moves.below, moves.moves⟩)
    traverses.runs spared

end Traverses

end Splitting

section Completion

variable {statements : Array Stmt} {jumps : Table Label Nat} {fuel position : Nat}
  {piece : List Stmt} {machine final : Machine}

/-- From some point on, all statements give the pointers back. -/
def IsSteadyFrom (code : Code) (point : Point) : Prop :=
  ∀ middle next, Relation.ReflTransGen code.Moves point middle → code.Moves middle next →
    SameLabels middle.machine next.machine

theorem isSteadyFrom_of_givesBack
    (back : ∀ statement ∈ code.statements.toList, ∀ made ∈ statement.calls, ∀ fuel,
      GivesBack (code.calls fuel) made.1) (point : Point) : code.IsSteadyFrom point := by
  intro middle next _ moves
  cases moves with
  | next found executed | jump found executed =>
      have member := Array.mem_toList_iff.mpr (Array.mem_of_getElem? found)
      exact sameLabels_of_execute (fun made isMade => back _ member made isMade _) executed

theorem IsSteadyFrom.next {point next : Point} (steady : code.IsSteadyFrom point)
    (moves : code.Moves point next) : code.IsSteadyFrom next :=
  fun middle last reaches step => steady middle last (.head moves reaches) step

/-- Unless a run is over, it goes on with a statement. -/
theorem moves_of_runFrom {point : Point} {statement : Stmt}
    (found : statements[point.position]? = some statement)
    (ran : runFrom (fuel + 1) statements jumps point.position point.temps point.machine =
      .ok () final) :
    ∃ next, (ofBody statements jumps).Moves point next ∧
      runFrom fuel statements jumps next.position next.temps next.machine = .ok () final := by
  rcases runFrom_eq_ok ran with ⟨absent, -⟩ | ⟨_, ⟨jump, temps⟩, middle, target, there, executed,
    goesOn, rest⟩
  · rw [found] at absent
    cases absent
  · obtain rfl := Option.some_inj.mp (found.symm.trans there)
    rcases goesOn with ⟨rfl, rfl⟩ | ⟨label, rfl, known⟩
    · exact ⟨⟨_, temps, middle⟩, .next found executed, rest⟩
    · exact ⟨⟨target, temps, middle⟩, .jump found executed known, rest⟩

/-- A run that enters a piece with its jumps inside, and that comes to an end, has gone through
the piece. -/
theorem exists_runsWithin_of_runFrom {point : Point}
    (placed : (ofBody statements jumps).Placed position piece) (inside : JumpsInside piece)
    (steady : (ofBody statements jumps).IsSteadyFrom point)
    (above : position ≤ point.position) (below : point.position ≤ position + piece.length)
    (ran : runFrom fuel statements jumps point.position point.temps point.machine =
      .ok () final) :
    ∃ less temps machine,
      (ofBody statements jumps).RunsWithin position (position + piece.length) point
        ⟨position + piece.length, temps, machine⟩ ∧
      runFrom less statements jumps (position + piece.length) temps machine = .ok () final := by
  induction fuel generalizing point with
  | zero => exact (Outcome.throw_ne_ok ran).elim
  | succ fuel ih =>
      obtain ⟨place, temps, machine⟩ := point
      rcases below.lt_or_eq with before | rfl
      · obtain ⟨index, rfl⟩ := Nat.exists_eq_add_of_le above
        have inBounds : index < piece.length := Nat.lt_of_add_lt_add_left before
        have found := placed.statement (List.getElem?_eq_getElem inBounds)
        obtain ⟨next, moves, rest⟩ := moves_of_runFrom found ran
        obtain ⟨lower, upper⟩ := moves.lands placed.stands inside above before
        obtain ⟨less, temps, machine, runs, later⟩ :=
          ih (steady.next moves) lower (upper.elim (fun same => same ▸ before) Nat.le_of_lt) rest
        have labels := steady _ _ .refl moves
        exact ⟨less, temps, machine, .head ⟨above, before, moves, labels⟩ runs, later⟩
      · exact ⟨fuel + 1, temps, machine, .refl, ran⟩

theorem exists_traverses_of_runFrom {temps : Temps}
    (placed : (ofBody statements jumps).Placed position piece) (inside : JumpsInside piece)
    (steady : (ofBody statements jumps).IsSteadyFrom ⟨position, temps, machine⟩)
    (ran : runFrom fuel statements jumps position temps machine = .ok () final) :
    ∃ less temps' machine',
      (ofBody statements jumps).Traverses position piece temps machine temps' machine' ∧
      runFrom less statements jumps (position + piece.length) temps' machine' = .ok () final := by
  obtain ⟨less, temps', machine', runs, rest⟩ := exists_runsWithin_of_runFrom placed inside steady
    (Nat.le_refl _) (Nat.le_add_right _ _) ran
  exact ⟨less, temps', machine', ⟨placed, runs⟩, rest⟩

end Completion

end Code

end TreeBackend.Machine
