import TreeBackend.Proofs.Frame.Walk

/-!
# Frames that are still growing

A walk over a definition may begin inside any functions, whose frames are still growing.
It asks for the types of the variables and parameters one after the other.  If all of them are
known, then it leaves these frames as they were, up to the room for a variable that it was asked
to place.  At the first one that is not known it stops, and has left on top of them the frames
of the functions that it has entered by then, each with what has been found in it so far.
-/

namespace TreeBackend

open Source

namespace Layout

/-- A function that has been entered but not left: the parameters that have been placed, and
what has been walked over in its body. -/
structure Entered where
  node : Node
  name : String
  placed : List Parameter
  walked : Contents

/-- A place at which a walk asks for a type: what has no type if the walk ends there, what has
been brought into the function in which the walk began, and the functions that have been entered
since, innermost first. -/
structure Demand where
  node : Node
  what : String
  walked : Contents := {}
  entered : List Entered := []

namespace Demand

/-- A demand in a part of a program that is walked over after another part. -/
def after (contents : Contents) (demand : Demand) : Demand :=
  { demand with walked := contents ++ demand.walked }

/-- A demand in the body of a function, seen from where the function is defined. -/
def within (node : Node) (name : String) (parameters : List Parameter) (demand : Demand) :
    Demand :=
  { demand with
    walked := {}
    entered := demand.entered ++ [⟨node, name, parameters, demand.walked⟩] }

/-- There is no type where a walk asks for one. -/
def isOpen (resolution : Resolution) (demand : Demand) : Bool :=
  (resolution.typeOf? demand.node.id).isNone

def problem (demand : Demand) : CompileError :=
  .located (.missingType demand.what) demand.node.span

@[simp] theorem isOpen_after (resolution : Resolution) (contents : Contents) (demand : Demand) :
    (demand.after contents).isOpen resolution = demand.isOpen resolution := rfl

@[simp] theorem isOpen_within (resolution : Resolution) (node : Node) (name : String)
    (parameters : List Parameter) (demand : Demand) :
    (demand.within node name parameters).isOpen resolution = demand.isOpen resolution := rfl

end Demand

/-- The demands of parameters of a function, after the ones that have been placed. -/
def parameterDemands (node : Node) (name : String) (placed : List Parameter) :
    List Parameter → List Demand
  | [] => []
  | parameter :: rest =>
      { node := parameter.node
        what := s!"parameter '{parameter.name}'"
        entered := [⟨node, name, placed, {}⟩] } ::
          parameterDemands node name (placed ++ [parameter]) rest

/-- The demands of two parts of a program, one after the other. -/
def demandsInTurn (contents : Contents) (first second : List Demand) : List Demand :=
  first ++ second.map (·.after contents)

end Layout

open Layout

mutual

/-- The demands of an expression, in the order of the walk. -/
def Source.Expr.demands (around : List NodeId) : Expr → List Demand
  | .literal .. | .name .. => []
  | .unary _ _ operand => operand.demands around
  | .binary _ _ left right =>
      demandsInTurn (left.contents around) (left.demands around) (right.demands around)
  | .call _ _ arguments =>
      demandsInTurn { calls := [arguments.length] } [] (Expr.demandsOfList around arguments)
  | .block _ items => Expr.demandsOfList around items
  | .ifThen _ condition thenBranch =>
      demandsInTurn (condition.contents around) (condition.demands around)
        (thenBranch.demands around)
  | .ifThenElse _ condition thenBranch elseBranch =>
      demandsInTurn (condition.contents around) (condition.demands around)
        (demandsInTurn (thenBranch.contents around) (thenBranch.demands around)
          (elseBranch.demands around))
  | .whileLoop _ condition body =>
      demandsInTurn (condition.contents around) (condition.demands around) (body.demands around)
  | .forLoop _ counter low high step body =>
      demandsInTurn (counter.contents around) (counter.demands around)
        (demandsInTurn (low.contents around) (low.demands around)
          (demandsInTurn (high.contents around) (high.demands around)
            (demandsInTurn (step.contents around) (step.demands around) (body.demands around))))
  | .whereIn _ definitions inner =>
      demandsInTurn (Def.contentsOfList around definitions) (Def.demandsOfList around definitions)
        (inner.demands around)

def Source.Expr.demandsOfList (around : List NodeId) : List Expr → List Demand
  | [] => []
  | expression :: rest =>
      demandsInTurn (expression.contents around) (expression.demands around)
        (Expr.demandsOfList around rest)

def Source.Def.demands (around : List NodeId) : Def → List Demand
  | .function node name parameters body =>
      parameterDemands node name [] parameters ++
        (body.demands (node.id :: around)).map (·.within node name parameters)
  | .var node name => [{ node, what := s!"variable '{name}'" }]
  | .typeAlias .. => []

def Source.Def.demandsOfList (around : List NodeId) : List Def → List Demand
  | [] => []
  | definition :: rest =>
      demandsInTurn (definition.contents around) (definition.demands around)
        (Def.demandsOfList around rest)

end

namespace Layout

/-- The label of a function that is entered inside the given number of others, if labels are
drawn between two supplies. -/
def IsLabelAt (first last : LabelSupply) (name : String) : (depth : Nat) → Label → Prop
  | 0, label => label = .named name
  | _ + 1, label => ∃ number, first.issued ≤ number ∧ number < last.issued ∧
      label = .anonymous number

/-- The frames of functions that have been entered but not left, innermost first, on top of the
given number of others. -/
inductive Unfinished (resolution : Resolution) (first last : LabelSupply) (below : Nat) :
    List Entered → List Frame → Prop
  | nil : Unfinished resolution first last below [] []
  | cons {entered : List Entered} {frames : List Frame} {innermost : Entered} {label : Label}
      (others : Unfinished resolution first last below entered frames)
      (labelled : IsLabelAt first last innermost.name (below + frames.length) label) :
      Unfinished resolution first last below (innermost :: entered)
        (((Frame.initial label (below + frames.length + 1)).withParameters resolution
          innermost.placed).withContents resolution innermost.walked :: frames)

section Unfinished

variable {resolution : Resolution} {first first' last last' : LabelSupply} {below : Nat}
  {entered : List Entered} {frames : List Frame}

theorem IsLabelAt.widen {name : String} {depth : Nat} {label : Label}
    (labelled : IsLabelAt first last name depth label) (lower : first'.issued ≤ first.issued)
    (upper : last.issued ≤ last'.issued) : IsLabelAt first' last' name depth label := by
  cases depth with
  | zero => exact labelled
  | succ depth =>
      obtain ⟨number, above, under, isLabel⟩ := labelled
      exact ⟨number, lower.trans above, under.trans_le upper, isLabel⟩

theorem Unfinished.widen (unfinished : Unfinished resolution first last below entered frames)
    (lower : first'.issued ≤ first.issued) (upper : last.issued ≤ last'.issued) :
    Unfinished resolution first' last' below entered frames := by
  induction unfinished with
  | nil => exact .nil
  | cons _ labelled ih => exact .cons ih (labelled.widen lower upper)

/-- The outermost of the functions that have been entered stands directly on the frames that were
there before. -/
theorem Unfinished.within
    (unfinished : Unfinished resolution first last (below + 1) entered frames)
    (outermost : Entered) {label : Label}
    (labelled : IsLabelAt first last outermost.name below label) :
    Unfinished resolution first last below (entered ++ [outermost])
      (frames ++ [((Frame.initial label (below + 1)).withParameters resolution
        outermost.placed).withContents resolution outermost.walked]) := by
  induction unfinished with
  | nil => exact .cons .nil labelled
  | @cons entered frames innermost inner others innerLabelled ih =>
      have same : below + (frames ++ [((Frame.initial label (below + 1)).withParameters resolution
          outermost.placed).withContents resolution outermost.walked]).length =
          below + 1 + frames.length := by
        simp only [List.length_append, List.length_singleton]
        omega
      have wider := @Unfinished.cons _ _ _ _ _ _ innermost inner ih
        (by rw [same]; exact innerLabelled)
      rw [same] at wider
      exact wider

end Unfinished

/-- A walk over a part of a function asks for types in the given order.  If it gets them, then the
innermost frame grows by what the part brings; if not, then it has grown by what has been walked
over in that function, and on top of it stand the frames of the functions entered since. -/
structure Asks (resolution : Resolution) (contents : Contents) (demands : List Demand)
    (walk : Layout Unit) : Prop where
  owned : ∀ id, id ∈ contents.ownedIds ↔ ∃ demand ∈ demands, demand.node.id = id
  succeeds : ∀ {labels : LabelSupply} {table : FrameTable} {frame : Frame} {outer : List Frame}
    {final : LayoutState}, walk ⟨labels, table, frame :: outer⟩ = .ok () final →
      demands.find? (·.isOpen resolution) = none ∧ labels.issued ≤ final.labels.issued ∧
        final.growing = frame.withContents resolution contents :: outer
  fails : ∀ {labels : LabelSupply} {table : FrameTable} {frame : Frame} {outer : List Frame}
    {problem : CompileError} {final : LayoutState},
    walk ⟨labels, table, frame :: outer⟩ = .error problem final →
      ∃ demand unfinished, demands.find? (·.isOpen resolution) = some demand ∧
        problem = demand.problem ∧ labels.issued ≤ final.labels.issued ∧
        final.growing = unfinished ++ frame.withContents resolution demand.walked :: outer ∧
        Unfinished resolution labels final.labels (outer.length + 1) demand.entered unfinished

@[simp] theorem withContents_nil (resolution : Resolution) (frame : Frame) :
    frame.withContents resolution {} = frame := by
  simp [Frame.withContents]

theorem find?_demandsInTurn (resolution : Resolution) (contents : Contents)
    (first second : List Demand) :
    (demandsInTurn contents first second).find? (·.isOpen resolution) =
      (first.find? (·.isOpen resolution)).or
        ((second.find? (·.isOpen resolution)).map (·.after contents)) := by
  rw [demandsInTurn, List.find?_append, List.find?_map]
  rfl

namespace Asks

variable {resolution : Resolution}

theorem nil : Asks resolution {} [] (pure ()) where
  owned id := by simp [Contents.ownedIds]
  succeeds succeeds := by
    obtain ⟨-, rfl⟩ := Outcome.pure_eq_ok.mp succeeds
    simp
  fails fails := (Outcome.pure_ne_error fails).elim

theorem append {first second : Contents} {demands others : List Demand} {walk next : Layout Unit}
    (left : Asks resolution first demands walk) (right : Asks resolution second others next) :
    Asks resolution (first ++ second) (demandsInTurn first demands others)
      (do walk; next) where
  owned id := by
    rw [Contents.mem_ownedIds_append, left.owned, right.owned]
    simp [demandsInTurn, or_and_right, exists_or, Demand.after]
  succeeds succeeds := by
    obtain ⟨⟨⟩, ⟨labels, table, growing⟩, succeeds, nextSucceeds⟩ := Outcome.bind_eq_ok.mp succeeds
    obtain ⟨noneOpen, supply, rfl⟩ := left.succeeds succeeds
    obtain ⟨noOther, nextSupply, grown⟩ := right.succeeds nextSucceeds
    refine ⟨?_, supply.trans nextSupply, ?_⟩
    · rw [find?_demandsInTurn, noneOpen, noOther]
      rfl
    · rw [grown, Frame.withContents_append]
  fails fails := by
    rcases Outcome.bind_eq_error.mp fails with fails | ⟨⟨⟩, ⟨labels, table, growing⟩, succeeds, fails⟩
    · obtain ⟨demand, unfinished, found, rest⟩ := left.fails fails
      refine ⟨demand, unfinished, ?_, rest⟩
      rw [find?_demandsInTurn, found]
      rfl
    · obtain ⟨noneOpen, supply, rfl⟩ := left.succeeds succeeds
      obtain ⟨demand, unfinished, found, rfl, nextSupply, grown, standing⟩ := right.fails fails
      refine ⟨demand.after first, unfinished, ?_, rfl, supply.trans nextSupply, ?_,
        standing.widen supply (Nat.le_refl _)⟩
      · rw [find?_demandsInTurn, noneOpen, found]
        rfl
      · rw [grown, Demand.after, Frame.withContents_append]

theorem call (node : Node) (name : String) (arguments : Nat) :
    Asks resolution { calls := [arguments] } [] (placeCall node name arguments) where
  owned id := by simp [Contents.ownedIds]
  succeeds succeeds := by
    obtain rfl := (EStateM.Result.ok.inj succeeds).2
    simp [Frame.withContents, Frame.reserveCall, callSize]
  fails fails := by cases fails

theorem localVariable (node : Node) (name : String) :
    Asks resolution { locals := [⟨node, name⟩] } [{ node, what := s!"variable '{name}'" }]
      (placeVariable resolution node name) where
  owned id := by simp [Contents.ownedIds, eq_comm]
  succeeds {labels table frame outer final} succeeds := by
    cases known : resolution.typeOf? node.id with
    | none => simp [placeVariable, known] at succeeds
    | some ty =>
        obtain rfl : _ = final := by simpa [placeVariable, known] using succeeds
        simp [Demand.isOpen, known, Frame.withContents, Frame.reserveLocal, Resolution.storageSize]
  fails {labels table frame outer problem final} fails := by
    cases known : resolution.typeOf? node.id with
    | none =>
        obtain ⟨rfl, rfl⟩ : _ = problem ∧ _ = final := by simpa [placeVariable, known] using fails
        refine ⟨⟨node, s!"variable '{name}'", {}, []⟩, [], ?_, rfl, Nat.le_refl _, ?_, .nil⟩
        · simp [Demand.isOpen, known]
        · simp
    | some ty => simp [placeVariable, known] at fails

end Asks

/-! ### Functions -/

section Functions

variable {resolution : Resolution} {labels : LabelSupply} {table : FrameTable} {stack : List Frame}
  {node : Node} {name : String} {final : LayoutState}

theorem withParameters_append (first second : List Parameter) (frame : Frame) :
    frame.withParameters resolution (first ++ second) =
      (frame.withParameters resolution first).withParameters resolution second := by
  simp [Frame.withParameters, Int.add_assoc]

theorem map_node_parameterDemands (node : Node) (name : String)
    (placed parameters : List Parameter) :
    (parameterDemands node name placed parameters).map (·.node) = parameters.map (·.node) := by
  induction parameters generalizing placed with
  | nil => rfl
  | cons parameter rest ih => simp [parameterDemands, ih]

theorem find?_parameterDemands_eq_none {placed parameters : List Parameter}
    (typed : ∀ parameter ∈ parameters, (resolution.typeOf? parameter.node.id).isSome = true) :
    (parameterDemands node name placed parameters).find? (·.isOpen resolution) = none := by
  rw [List.find?_eq_none]
  intro demand member isOpen
  have isNode : demand.node ∈ parameters.map (·.node) :=
    map_node_parameterDemands node name placed parameters ▸
      List.mem_map.mpr ⟨demand, member, rfl⟩
  obtain ⟨parameter, isParameter, same⟩ := List.mem_map.mp isNode
  have known := typed parameter isParameter
  rw [same] at known
  simp [Demand.isOpen, Option.isSome_iff_ne_none.mp known] at isOpen

/-- The parameters before the first one that has no type are placed. -/
theorem placeParameters_stops {frame : Frame} {placed parameters : List Parameter}
    {problem : CompileError} (fails : parameters.forM (placeParameter resolution)
      ⟨labels, table, frame.withParameters resolution placed :: stack⟩ = .error problem final) :
    ∃ demand reached, (parameterDemands node name placed parameters).find? (·.isOpen resolution) =
        some demand ∧ problem = demand.problem ∧ demand.walked = {} ∧
      demand.entered = [⟨node, name, reached, {}⟩] ∧ final.labels = labels ∧
      final.growing = frame.withParameters resolution reached :: stack := by
  induction parameters generalizing table placed with
  | nil => exact (Outcome.pure_ne_error fails).elim
  | cons parameter rest ih =>
      cases known : resolution.typeOf? parameter.node.id with
      | none =>
          rcases Outcome.bind_eq_error.mp fails with fails | ⟨⟨⟩, middle, first, -⟩
          · obtain ⟨rfl, rfl⟩ : _ = problem ∧ _ = final := by
              simpa [placeParameter, known] using fails
            refine ⟨⟨parameter.node, s!"parameter '{parameter.name}'", {},
              [⟨node, name, placed, {}⟩]⟩, placed, ?_, rfl, rfl, rfl, rfl, rfl⟩
            simp [parameterDemands, Demand.isOpen, known]
          · simp [placeParameter, known] at first
      | some ty =>
          rcases Outcome.bind_eq_error.mp fails with fails | ⟨⟨⟩, middle, first, fails⟩
          · simp [placeParameter, known] at fails
          · obtain ⟨-, rfl⟩ := placeParameter_eq_ok first
            rw [← withParameters_append] at fails
            obtain ⟨demand, reached, found, rest⟩ := ih fails
            refine ⟨demand, reached, ?_, rest⟩
            rw [parameterDemands, List.find?_cons_of_neg, found]
            simp [Demand.isOpen, known]

theorem enterFunction_ne_error {problem : CompileError} {state : LayoutState} :
    enterFunction name state ≠ .error problem final := by
  intro fails
  cases fails

theorem enterFunction_eq_ok_labelled
    (succeeds : enterFunction name ⟨labels, table, stack⟩ = .ok () final) :
    ∃ label middle, final = ⟨middle, table, Frame.initial label (stack.length + 1) :: stack⟩ ∧
      labels.issued ≤ middle.issued ∧ IsLabelAt labels middle name stack.length label := by
  obtain ⟨label, middle, rfl, supply, outermost, nested⟩ := enterFunction_eq_ok succeeds
  refine ⟨label, middle, rfl, supply, ?_⟩
  cases stack with
  | nil => exact outermost rfl
  | cons frame outer => exact nested (by simp)

theorem find?_demands_function {parameters : List Parameter} {body : Expr}
    (around : List NodeId) :
    ((Def.function node name parameters body).demands around).find? (·.isOpen resolution) =
      ((parameterDemands node name [] parameters).find? (·.isOpen resolution)).or
        (((body.demands (node.id :: around)).find? (·.isOpen resolution)).map
          (·.within node name parameters)) := by
  rw [Def.demands, List.find?_append, List.find?_map]
  rfl

variable {parameters : List Parameter} {body : Expr} {around : List NodeId}

/-- A function whose types are known leaves all frames around it as they were. -/
theorem ofDef_function_restores
    (asks : Asks resolution (body.contents (node.id :: around)) (body.demands (node.id :: around))
      (ofExpr resolution body))
    (succeeds : ofDef resolution (.function node name parameters body) ⟨labels, table, stack⟩ =
      .ok () final) :
    ((Def.function node name parameters body).demands around).find? (·.isOpen resolution) = none ∧
      labels.issued ≤ final.labels.issued ∧ final.growing = stack := by
  obtain ⟨⟨⟩, entered, enters, placesAndWalks⟩ := Outcome.bind_eq_ok.mp succeeds
  obtain ⟨label, middle, rfl, supply, -⟩ := enterFunction_eq_ok_labelled enters
  obtain ⟨⟨⟩, ⟨placedLabels, placedTable, _⟩, places, walksAndLeaves⟩ :=
    Outcome.bind_eq_ok.mp placesAndWalks
  obtain ⟨typed, rfl, rfl, -⟩ := placeParameters_eq_ok places
  obtain ⟨⟨⟩, ⟨walkedLabels, walkedTable, _⟩, walks, leaves⟩ :=
    Outcome.bind_eq_ok.mp walksAndLeaves
  obtain ⟨noneOpen, walkedSupply, rfl⟩ := asks.succeeds walks
  obtain rfl := (EStateM.Result.ok.inj leaves).2
  refine ⟨?_, supply.trans walkedSupply, rfl⟩
  rw [find?_demands_function, find?_parameterDemands_eq_none typed, noneOpen]
  rfl

/-- At the first type that is not known, the frame of a function and those of the functions
within it that have been entered stand on the frames around it. -/
theorem ofDef_function_stops
    (asks : Asks resolution (body.contents (node.id :: around)) (body.demands (node.id :: around))
      (ofExpr resolution body)) {problem : CompileError}
    (fails : ofDef resolution (.function node name parameters body) ⟨labels, table, stack⟩ =
      .error problem final) :
    ∃ demand unfinished,
      ((Def.function node name parameters body).demands around).find? (·.isOpen resolution) =
        some demand ∧ problem = demand.problem ∧ labels.issued ≤ final.labels.issued ∧
      demand.walked = {} ∧ final.growing = unfinished ++ stack ∧
      Unfinished resolution labels final.labels stack.length demand.entered unfinished := by
  rcases Outcome.bind_eq_error.mp fails with cannotEnter | ⟨⟨⟩, entered, enters, failsAfter⟩
  · exact (enterFunction_ne_error cannotEnter).elim
  obtain ⟨label, middle, rfl, supply, labelled⟩ := enterFunction_eq_ok_labelled enters
  rcases Outcome.bind_eq_error.mp failsAfter with cannotPlace |
    ⟨⟨⟩, ⟨placedLabels, placedTable, _⟩, places, failsWithin⟩
  · have start : Frame.initial label (stack.length + 1) =
        (Frame.initial label (stack.length + 1)).withParameters resolution [] := by
      simp [Frame.withParameters]
    rw [start] at cannotPlace
    obtain ⟨demand, reached, found, rfl, walked, isEntered, sameLabels, grown⟩ :=
      placeParameters_stops cannotPlace
    have standing : Unfinished resolution labels middle stack.length
        [⟨node, name, reached, {}⟩] _ := .cons .nil labelled
    refine ⟨demand, _, ?_, rfl, sameLabels ▸ supply, walked, ?_,
      isEntered ▸ sameLabels ▸ standing⟩
    · rw [find?_demands_function, found]
      rfl
    · rw [grown, withContents_nil]
      rfl
  obtain ⟨typed, rfl, rfl, -⟩ := placeParameters_eq_ok places
  rcases Outcome.bind_eq_error.mp failsWithin with cannotWalk |
    ⟨⟨⟩, ⟨walkedLabels, walkedTable, _⟩, walks, leaves⟩
  · obtain ⟨demand, unfinished, found, rfl, walkedSupply, grown, standing⟩ :=
      asks.fails cannotWalk
    refine ⟨demand.within node name parameters, _, ?_, rfl, supply.trans walkedSupply, rfl, ?_,
      (standing.widen supply (Nat.le_refl _)).within
        ⟨node, name, parameters, demand.walked⟩ (labelled.widen (Nat.le_refl _) walkedSupply)⟩
    · rw [find?_demands_function, find?_parameterDemands_eq_none typed, found]
      rfl
    · rw [grown, List.append_assoc]
      rfl
  · obtain ⟨-, -, rfl⟩ := asks.succeeds walks
    cases leaves

theorem Asks.function
    (asks : Asks resolution (body.contents (node.id :: around)) (body.demands (node.id :: around))
      (ofExpr resolution body)) :
    Asks resolution ((Def.function node name parameters body).contents around)
      ((Def.function node name parameters body).demands around)
      (ofDef resolution (.function node name parameters body)) where
  owned id := by
    have isOwned := Contents.ownedIds_ofFunction ⟨node, name, parameters, body, around⟩
    change id ∈ (Contents.ofFunction ⟨node, name, parameters, body, around⟩).ownedIds ↔ _
    have ofParameters : id ∈ parameters.map (·.node.id) ↔
        ∃ demand ∈ parameterDemands node name [] parameters, demand.node.id = id := by
      have nodes := map_node_parameterDemands node name [] parameters
      simpa using congrArg (fun nodes => id ∈ nodes.map Node.id) nodes.symm
    rw [isOwned, List.mem_append, ofParameters, Function.contents, asks.owned]
    simp [Def.demands, or_and_right, exists_or, Demand.within]
  succeeds succeeds := by
    obtain ⟨noneOpen, supply, grown⟩ := ofDef_function_restores asks succeeds
    exact ⟨noneOpen, supply, by simp [grown, Frame.withContents, Def.contents]⟩
  fails fails := by
    obtain ⟨demand, unfinished, found, isProblem, supply, walked, grown, standing⟩ :=
      ofDef_function_stops asks fails
    exact ⟨demand, unfinished, found, isProblem, supply,
      by rw [grown, walked, withContents_nil], standing⟩

end Functions

variable {resolution : Resolution}

mutual

/-- An expression asks for the types of all that is defined in it. -/
theorem asks_ofExpr : (expression : Expr) → (around : List NodeId) →
    Asks resolution (expression.contents around) (expression.demands around)
      (ofExpr resolution expression)
  | .literal .., _ | .name .., _ => .nil
  | .unary _ _ operand, around => asks_ofExpr operand around
  | .binary _ _ left right, around => (asks_ofExpr left around).append (asks_ofExpr right around)
  | .call node name arguments, around =>
      (Asks.call node name arguments.length).append (asks_ofExprs arguments around)
  | .block _ items, around => asks_ofExprs items around
  | .ifThen _ condition thenBranch, around =>
      (asks_ofExpr condition around).append (asks_ofExpr thenBranch around)
  | .ifThenElse _ condition thenBranch elseBranch, around => by
      have asks := (asks_ofExpr condition around).append
        ((asks_ofExpr thenBranch around).append (asks_ofExpr elseBranch around))
      rwa [← Contents.append_assoc] at asks
  | .whileLoop _ condition body, around =>
      (asks_ofExpr condition around).append (asks_ofExpr body around)
  | .forLoop _ counter low high step body, around => by
      have asks := (asks_ofExpr counter around).append ((asks_ofExpr low around).append
        ((asks_ofExpr high around).append
          ((asks_ofExpr step around).append (asks_ofExpr body around))))
      rwa [← Contents.append_assoc, ← Contents.append_assoc, ← Contents.append_assoc] at asks
  | .whereIn _ definitions inner, around =>
      (asks_ofDefs definitions around).append (asks_ofExpr inner around)

theorem asks_ofExprs : (expressions : List Expr) → (around : List NodeId) →
    Asks resolution (Expr.contentsOfList around expressions) (Expr.demandsOfList around expressions)
      (ofExprs resolution expressions)
  | [], _ => .nil
  | expression :: rest, around =>
      (asks_ofExpr expression around).append (asks_ofExprs rest around)

theorem asks_ofDef : (definition : Def) → (around : List NodeId) →
    Asks resolution (definition.contents around) (definition.demands around)
      (ofDef resolution definition)
  | .function node _ _ body, around => .function (asks_ofExpr body (node.id :: around))
  | .var node name, _ => .localVariable node name
  | .typeAlias .., _ => .nil

theorem asks_ofDefs : (definitions : List Def) → (around : List NodeId) →
    Asks resolution (Def.contentsOfList around definitions) (Def.demandsOfList around definitions)
      (ofDefs resolution definitions)
  | [], _ => .nil
  | definition :: rest, around =>
      (asks_ofDef definition around).append (asks_ofDefs rest around)

end

/-! ### Definitions under any frames -/

section Definitions

variable {definition : Def} {state final : LayoutState}

/-- The frames around a definition after it has been laid out: a variable takes room in the
innermost one, as far as a word can tell, and nothing else changes. -/
def enlarge (resolution : Resolution) : Def → List Frame → List Frame
  | .var node _, innermost :: outer =>
      { innermost with
        localsSize := Word.wrap (innermost.localsSize + resolution.extent node.id) } :: outer
  | _, stack => stack

/-- A walk over a definition that succeeds has found all types. -/
theorem ofDef_enlarges (around : List NodeId)
    (succeeds : ofDef resolution definition state = .ok () final) :
    (definition.demands around).find? (·.isOpen resolution) = none ∧
      final.growing = enlarge resolution definition state.growing := by
  obtain ⟨labels, table, stack⟩ := state
  cases definition with
  | function node name parameters body =>
      obtain ⟨noneOpen, -, grown⟩ :=
        ofDef_function_restores (asks_ofExpr body (node.id :: around)) succeeds
      exact ⟨noneOpen, grown⟩
  | var node name =>
      cases known : resolution.typeOf? node.id with
      | none => simp [ofDef, placeVariable, known] at succeeds
      | some ty =>
          refine ⟨by simp [Def.demands, Demand.isOpen, known], ?_⟩
          cases stack <;>
          · obtain rfl : _ = final := by simpa [ofDef, placeVariable, known] using succeeds
            simp [enlarge, Frame.reserveLocal, Resolution.extent, Ty.storageSize_eq_wrap, known]
  | typeAlias node name =>
      obtain ⟨-, rfl⟩ := Outcome.pure_eq_ok.mp succeeds
      exact ⟨rfl, by cases stack <;> rfl⟩

/-- A walk over a definition that fails has stopped at the first type that is not known. -/
theorem ofDef_stops (around : List NodeId) {problem : CompileError}
    (fails : ofDef resolution definition state = .error problem final) :
    ∃ demand unfinished, (definition.demands around).find? (·.isOpen resolution) = some demand ∧
      problem = demand.problem ∧ final.growing = unfinished ++ state.growing ∧
      Unfinished resolution state.labels final.labels state.growing.length demand.entered
        unfinished := by
  obtain ⟨labels, table, stack⟩ := state
  cases definition with
  | function node name parameters body =>
      obtain ⟨demand, unfinished, found, isProblem, -, -, grown, standing⟩ :=
        ofDef_function_stops (asks_ofExpr body (node.id :: around)) fails
      exact ⟨demand, unfinished, found, isProblem, grown, standing⟩
  | var node name =>
      cases known : resolution.typeOf? node.id with
      | none =>
          obtain ⟨rfl, rfl⟩ : _ = problem ∧ _ = final := by
            simpa [ofDef, placeVariable, known] using fails
          refine ⟨⟨node, s!"variable '{name}'", {}, []⟩, [], ?_, rfl, rfl, .nil⟩
          simp [Def.demands, Demand.isOpen, known]
      | some ty => cases stack <;> simp [ofDef, placeVariable, known] at fails
  | typeAlias node name => exact (Outcome.pure_ne_error fails).elim

/-- A walk over a definition, begun inside any functions, either leaves their frames as they were,
up to the room for a variable in the innermost one, which is exact where the frame's locals still
fit into a word; or it leaves them all as they were, with the frames of the functions entered and
not left on top.  It fails exactly if a variable or parameter of the definition has no type, and it
reports the first of these. -/
theorem ofDef_respects_growing (resolution : Resolution) (definition : Def)
    (around : List NodeId) (state : LayoutState) :
    (∀ final, ofDef resolution definition state = .ok () final →
      final.growing.length = state.growing.length ∧
        final.growing = enlarge resolution definition state.growing) ∧
    (∀ node name innermost outer, Word.Fits (innermost.localsSize + resolution.extent node.id) →
      enlarge resolution (.var node name) (innermost :: outer) =
        { innermost with localsSize := innermost.localsSize + resolution.extent node.id } :: outer) ∧
    (∀ problem final, ofDef resolution definition state = .error problem final →
      ∃ demand unfinished,
        (definition.demands around).find? (·.isOpen resolution) = some demand ∧
        problem = .located (.missingType demand.what) demand.node.span ∧
        final.growing = unfinished ++ state.growing ∧
        Unfinished resolution state.labels final.labels state.growing.length demand.entered
          unfinished) ∧
    ((∃ problem final, ofDef resolution definition state = .error problem final) ↔
      ∃ id ∈ (definition.contents around).ownedIds, resolution.typeOf? id = none) := by
  have asked := (asks_ofDef definition around : Asks resolution _ _ _).owned
  refine ⟨fun final succeeds => ?_, fun node name innermost outer fits => ?_,
    fun problem final fails => ofDef_stops around fails, ?_⟩
  · obtain ⟨-, grown⟩ := ofDef_enlarges around succeeds
    refine ⟨?_, grown⟩
    rw [grown]
    cases definition <;> cases state.growing <;> rfl
  · rw [enlarge, Word.wrap_of_fits fits]
  · constructor
    · rintro ⟨problem, final, fails⟩
      obtain ⟨demand, -, found, -⟩ := ofDef_stops around fails
      refine ⟨demand.node.id, (asked _).mpr ⟨demand, List.mem_of_find?_eq_some found, rfl⟩, ?_⟩
      simpa [Demand.isOpen] using List.find?_some found
    · rintro ⟨id, isOwned, untyped⟩
      obtain ⟨demand, isDemand, rfl⟩ := (asked id).mp isOwned
      cases walked : ofDef resolution definition state with
      | error problem final => exact ⟨problem, final, rfl⟩
      | ok value final =>
          obtain ⟨noneOpen, -⟩ := ofDef_enlarges around walked
          have isKnown := List.find?_eq_none.mp noneOpen demand isDemand
          simp [Demand.isOpen, untyped] at isKnown

/-- A table that fills a word up to its last four bytes leaves no room for another variable: with
that one, the locals of the frame take a negative number of bytes. -/
theorem overflowing_variable_shrinks_frame :
    let resolution : Resolution :=
      { types := .ofList [(0, .array 2305843009213693951 .int), (1, .int)] }
    let frame : Frame := { label := .named "f", level := 1 }
    let walk := ofDefs resolution [.var { id := 0 } "table", .var { id := 1 } "x"]
    frame.localsSize + resolution.extent 0 + resolution.extent 1 = 9223372036854775808 ∧
      ∃ final, walk { growing := [frame] } = .ok () final ∧
        final.growing = [{ frame with localsSize := -9223372036854775808 }] := by
  intro resolution frame walk
  exact ⟨by decide +kernel, _, rfl, by decide +kernel⟩

end Definitions

end Layout

end TreeBackend
