import TreeBackend.Proofs.Source.Contents

/-!
# The expressions in a program

All expressions of a program, at any depth and in the bodies of all functions.
-/

namespace TreeBackend.Source

mutual

def Expr.parts : Expr → List Expr
  | .literal node value => [.literal node value]
  | .name node name => [.name node name]
  | .unary node operator operand => .unary node operator operand :: operand.parts
  | .binary node operator left right =>
      .binary node operator left right :: (left.parts ++ right.parts)
  | .call node name arguments => .call node name arguments :: Expr.partsOfList arguments
  | .block node items => .block node items :: Expr.partsOfList items
  | .ifThen node condition thenBranch =>
      .ifThen node condition thenBranch :: (condition.parts ++ thenBranch.parts)
  | .ifThenElse node condition thenBranch elseBranch =>
      .ifThenElse node condition thenBranch elseBranch ::
        (condition.parts ++ thenBranch.parts ++ elseBranch.parts)
  | .whileLoop node condition body =>
      .whileLoop node condition body :: (condition.parts ++ body.parts)
  | .forLoop node counter low high step body =>
      .forLoop node counter low high step body ::
        (counter.parts ++ low.parts ++ high.parts ++ step.parts ++ body.parts)
  | .whereIn node definitions inner =>
      .whereIn node definitions inner :: (Def.partsOfList definitions ++ inner.parts)

def Expr.partsOfList : List Expr → List Expr
  | [] => []
  | expression :: rest => expression.parts ++ Expr.partsOfList rest

def Def.parts : Def → List Expr
  | .function _ _ _ body => body.parts
  | .var .. | .typeAlias .. => []

def Def.partsOfList : List Def → List Expr
  | [] => []
  | definition :: rest => definition.parts ++ Def.partsOfList rest

end

def Program.parts (program : Program) : List Expr := Def.partsOfList program.definitions

theorem Expr.mem_parts (expression : Expr) : expression ∈ expression.parts := by
  cases expression <;> simp [Expr.parts]

mutual

theorem Expr.parts_body_subset (around : List NodeId) : (expression : Expr) →
    ∀ function ∈ (expression.contents around).functions, function.body.parts ⊆ expression.parts
  | .literal .. | .name .. => by simp [Expr.contents]
  | .unary _ _ operand => fun function member part isPart =>
      List.mem_cons_of_mem _ (Expr.parts_body_subset around operand function member isPart)
  | .binary _ _ left right => fun function member part isPart => by
      rcases List.mem_append.mp member with member | member
      · simp [Expr.parts, Expr.parts_body_subset around left function member isPart]
      · simp [Expr.parts, Expr.parts_body_subset around right function member isPart]
  | .call _ _ arguments => fun function member part isPart =>
      List.mem_cons_of_mem _
        (Expr.partsOfList_body_subset around arguments function member isPart)
  | .block _ items => fun function member part isPart =>
      List.mem_cons_of_mem _ (Expr.partsOfList_body_subset around items function member isPart)
  | .ifThen _ condition thenBranch => fun function member part isPart => by
      rcases List.mem_append.mp member with member | member
      · simp [Expr.parts, Expr.parts_body_subset around condition function member isPart]
      · simp [Expr.parts, Expr.parts_body_subset around thenBranch function member isPart]
  | .ifThenElse _ condition thenBranch elseBranch => fun function member part isPart => by
      rcases List.mem_append.mp member with member | member
      · rcases List.mem_append.mp member with member | member
        · simp [Expr.parts, Expr.parts_body_subset around condition function member isPart]
        · simp [Expr.parts, Expr.parts_body_subset around thenBranch function member isPart]
      · simp [Expr.parts, Expr.parts_body_subset around elseBranch function member isPart]
  | .whileLoop _ condition body => fun function member part isPart => by
      rcases List.mem_append.mp member with member | member
      · simp [Expr.parts, Expr.parts_body_subset around condition function member isPart]
      · simp [Expr.parts, Expr.parts_body_subset around body function member isPart]
  | .forLoop _ counter low high step body => fun function member part isPart => by
      rcases List.mem_append.mp member with member | member
      · rcases List.mem_append.mp member with member | member
        · rcases List.mem_append.mp member with member | member
          · rcases List.mem_append.mp member with member | member
            · simp [Expr.parts, Expr.parts_body_subset around counter function member isPart]
            · simp [Expr.parts, Expr.parts_body_subset around low function member isPart]
          · simp [Expr.parts, Expr.parts_body_subset around high function member isPart]
        · simp [Expr.parts, Expr.parts_body_subset around step function member isPart]
      · simp [Expr.parts, Expr.parts_body_subset around body function member isPart]
  | .whereIn _ definitions inner => fun function member part isPart => by
      rcases List.mem_append.mp member with member | member
      · simp [Expr.parts, Def.partsOfList_body_subset around definitions function member isPart]
      · simp [Expr.parts, Expr.parts_body_subset around inner function member isPart]

theorem Expr.partsOfList_body_subset (around : List NodeId) : (expressions : List Expr) →
    ∀ function ∈ (Expr.contentsOfList around expressions).functions,
      function.body.parts ⊆ Expr.partsOfList expressions
  | [] => by simp [Expr.contentsOfList]
  | expression :: rest => fun function member part isPart => by
      rcases List.mem_append.mp member with member | member
      · simp [Expr.partsOfList, Expr.parts_body_subset around expression function member isPart]
      · simp [Expr.partsOfList, Expr.partsOfList_body_subset around rest function member isPart]

theorem Def.parts_body_subset (around : List NodeId) : (definition : Def) →
    ∀ function ∈ (definition.contents around).functions, function.body.parts ⊆ definition.parts
  | .function node _ _ body => fun function member part isPart => by
      rcases List.mem_cons.mp member with rfl | member
      · exact isPart
      · exact Expr.parts_body_subset (node.id :: around) body function member isPart
  | .var .. | .typeAlias .. => by simp [Def.contents]

theorem Def.partsOfList_body_subset (around : List NodeId) : (definitions : List Def) →
    ∀ function ∈ (Def.contentsOfList around definitions).functions,
      function.body.parts ⊆ Def.partsOfList definitions
  | [] => by simp [Def.contentsOfList]
  | definition :: rest => fun function member part isPart => by
      rcases List.mem_append.mp member with member | member
      · simp [Def.partsOfList, Def.parts_body_subset around definition function member isPart]
      · simp [Def.partsOfList, Def.partsOfList_body_subset around rest function member isPart]

end

theorem Program.parts_body_subset {program : Program} {function : Function}
    (member : function ∈ program.functions) : function.body.parts ⊆ program.parts :=
  Def.partsOfList_body_subset [] program.definitions function member

/-! ### The expressions of one function -/

mutual

/-- An expression and all expressions in it, apart from those in the functions that it defines. -/
def Expr.ownParts : Expr → List Expr
  | .literal node value => [.literal node value]
  | .name node called => [.name node called]
  | .unary node operator operand => .unary node operator operand :: operand.ownParts
  | .binary node operator left right =>
      .binary node operator left right :: (left.ownParts ++ right.ownParts)
  | .call node called arguments => .call node called arguments :: Expr.ownPartsOfList arguments
  | .block node items => .block node items :: Expr.ownPartsOfList items
  | .ifThen node condition thenBranch =>
      .ifThen node condition thenBranch :: (condition.ownParts ++ thenBranch.ownParts)
  | .ifThenElse node condition thenBranch elseBranch =>
      .ifThenElse node condition thenBranch elseBranch ::
        (condition.ownParts ++ thenBranch.ownParts ++ elseBranch.ownParts)
  | .whileLoop node condition body =>
      .whileLoop node condition body :: (condition.ownParts ++ body.ownParts)
  | .forLoop node counter low high step body =>
      .forLoop node counter low high step body ::
        (counter.ownParts ++ low.ownParts ++ high.ownParts ++ step.ownParts ++ body.ownParts)
  | .whereIn node definitions inner => .whereIn node definitions inner :: inner.ownParts

/-- All expressions in expressions, apart from those in the functions that they define. -/
def Expr.ownPartsOfList : List Expr → List Expr
  | [] => []
  | expression :: rest => expression.ownParts ++ Expr.ownPartsOfList rest

end

mutual

/-- What is in an expression of a function is in the function. -/
theorem Expr.parts_subset_of_mem_ownParts {part : Expr} : (expression : Expr) →
    part ∈ expression.ownParts → part.parts ⊆ expression.parts
  | .literal .., member | .name .., member => by
      obtain rfl := List.mem_singleton.mp (by simpa [Expr.ownParts] using member)
      exact List.Subset.refl _
  | .unary _ _ operand, member => by
      rcases List.mem_cons.mp member with rfl | member
      · exact List.Subset.refl _
      · exact List.subset_cons_of_subset _ (Expr.parts_subset_of_mem_ownParts operand member)
  | .binary _ _ left right, member => by
      rcases List.mem_cons.mp member with rfl | member
      · exact List.Subset.refl _
      · refine List.subset_cons_of_subset _ ?_
        rcases List.mem_append.mp member with member | member
        · exact List.subset_append_of_subset_left _ (Expr.parts_subset_of_mem_ownParts left member)
        · exact List.subset_append_of_subset_right _
            (Expr.parts_subset_of_mem_ownParts right member)
  | .call _ _ arguments, member => by
      rcases List.mem_cons.mp member with rfl | member
      · exact List.Subset.refl _
      · exact List.subset_cons_of_subset _
          (Expr.parts_subset_of_mem_ownPartsOfList arguments member)
  | .block _ items, member => by
      rcases List.mem_cons.mp member with rfl | member
      · exact List.Subset.refl _
      · exact List.subset_cons_of_subset _ (Expr.parts_subset_of_mem_ownPartsOfList items member)
  | .ifThen _ condition thenBranch, member => by
      rcases List.mem_cons.mp member with rfl | member
      · exact List.Subset.refl _
      · refine List.subset_cons_of_subset _ ?_
        rcases List.mem_append.mp member with member | member
        · exact List.subset_append_of_subset_left _
            (Expr.parts_subset_of_mem_ownParts condition member)
        · exact List.subset_append_of_subset_right _
            (Expr.parts_subset_of_mem_ownParts thenBranch member)
  | .ifThenElse _ condition thenBranch elseBranch, member => by
      rcases List.mem_cons.mp member with rfl | member
      · exact List.Subset.refl _
      · have inside : part ∈ condition.ownParts ∨ part ∈ thenBranch.ownParts ∨
            part ∈ elseBranch.ownParts := by simpa [or_assoc] using member
        intro piece isPiece
        rcases inside with member | member | member
        · simp [Expr.parts, Expr.parts_subset_of_mem_ownParts condition member isPiece]
        · simp [Expr.parts, Expr.parts_subset_of_mem_ownParts thenBranch member isPiece]
        · simp [Expr.parts, Expr.parts_subset_of_mem_ownParts elseBranch member isPiece]
  | .whileLoop _ condition body, member => by
      rcases List.mem_cons.mp member with rfl | member
      · exact List.Subset.refl _
      · refine List.subset_cons_of_subset _ ?_
        rcases List.mem_append.mp member with member | member
        · exact List.subset_append_of_subset_left _
            (Expr.parts_subset_of_mem_ownParts condition member)
        · exact List.subset_append_of_subset_right _
            (Expr.parts_subset_of_mem_ownParts body member)
  | .forLoop _ counter low high step body, member => by
      rcases List.mem_cons.mp member with rfl | member
      · exact List.Subset.refl _
      · have inside : part ∈ counter.ownParts ∨ part ∈ low.ownParts ∨ part ∈ high.ownParts ∨
            part ∈ step.ownParts ∨ part ∈ body.ownParts := by simpa [or_assoc] using member
        intro piece isPiece
        rcases inside with member | member | member | member | member
        · simp [Expr.parts, Expr.parts_subset_of_mem_ownParts counter member isPiece]
        · simp [Expr.parts, Expr.parts_subset_of_mem_ownParts low member isPiece]
        · simp [Expr.parts, Expr.parts_subset_of_mem_ownParts high member isPiece]
        · simp [Expr.parts, Expr.parts_subset_of_mem_ownParts step member isPiece]
        · simp [Expr.parts, Expr.parts_subset_of_mem_ownParts body member isPiece]
  | .whereIn _ definitions inner, member => by
      rcases List.mem_cons.mp member with rfl | member
      · exact List.Subset.refl _
      · exact List.subset_cons_of_subset _ (List.subset_append_of_subset_right _
          (Expr.parts_subset_of_mem_ownParts inner member))

theorem Expr.parts_subset_of_mem_ownPartsOfList {part : Expr} : (expressions : List Expr) →
    part ∈ Expr.ownPartsOfList expressions → part.parts ⊆ Expr.partsOfList expressions
  | [], member => by cases member
  | expression :: rest, member => by
      rcases List.mem_append.mp member with member | member
      · exact List.subset_append_of_subset_left _
          (Expr.parts_subset_of_mem_ownParts expression member)
      · exact List.subset_append_of_subset_right _
          (Expr.parts_subset_of_mem_ownPartsOfList rest member)

end

/-! ### References -/

mutual

/-- The references in an expression with their names, apart from those in the functions that
it defines. -/
def Expr.references : Expr → List (Node × String)
  | .literal .. => []
  | .name node called => [(node, called)]
  | .unary _ _ operand => operand.references
  | .binary _ _ left right => left.references ++ right.references
  | .call _ _ arguments => Expr.referencesOfList arguments
  | .block _ items => Expr.referencesOfList items
  | .ifThen _ condition thenBranch => condition.references ++ thenBranch.references
  | .ifThenElse _ condition thenBranch elseBranch =>
      condition.references ++ thenBranch.references ++ elseBranch.references
  | .whileLoop _ condition body => condition.references ++ body.references
  | .forLoop _ counter low high step body =>
      counter.references ++ low.references ++ high.references ++ step.references ++
        body.references
  | .whereIn _ _ inner => inner.references

def Expr.referencesOfList : List Expr → List (Node × String)
  | [] => []
  | expression :: rest => expression.references ++ Expr.referencesOfList rest

end

/-! ### Where assignments go -/

/-- Whether an expression is a reference to a variable or an element of an array. -/
def Expr.isReference : Expr → Bool
  | .name .. | .binary _ .index _ _ => true
  | _ => false

/-- Whether an expression, if it is an assignment, goes to a reference or an element. -/
def Expr.assignsToReference : Expr → Bool
  | .binary _ .assign target _ => target.isReference
  | _ => true

/-- All assignments among some expressions go to references or elements. -/
def AssignToReferences (parts : List Expr) : Prop :=
  ∀ part ∈ parts, part.assignsToReference = true

instance (parts : List Expr) : Decidable (AssignToReferences parts) :=
  inferInstanceAs (Decidable (∀ part ∈ parts, part.assignsToReference = true))

theorem AssignToReferences.mono {parts others : List Expr} (assign : AssignToReferences parts)
    (includes : others ⊆ parts) : AssignToReferences others :=
  fun part member => assign part (includes member)

theorem AssignToReferences.left {parts others : List Expr}
    (both : AssignToReferences (parts ++ others)) : AssignToReferences parts :=
  both.mono (List.subset_append_left ..)

theorem AssignToReferences.right {parts others : List Expr}
    (both : AssignToReferences (parts ++ others)) : AssignToReferences others :=
  both.mono (List.subset_append_right ..)

/-- What holds of an expression and the ones in it holds of the ones in it. -/
theorem AssignToReferences.within {part : Expr} {parts : List Expr}
    (whole : AssignToReferences (part :: parts)) : AssignToReferences parts :=
  whole.mono (List.subset_cons_self ..)

theorem AssignToReferences.nil : AssignToReferences [] := by simp [AssignToReferences]

theorem AssignToReferences.single {part : Expr} (assigns : part.assignsToReference = true) :
    AssignToReferences [part] :=
  List.forall_mem_singleton.mpr assigns

theorem AssignToReferences.cons {part : Expr} {parts : List Expr} (rest : AssignToReferences parts)
    (assigns : part.assignsToReference = true) : AssignToReferences (part :: parts) :=
  List.forall_mem_cons.mpr ⟨assigns, rest⟩

theorem AssignToReferences.append {parts others : List Expr} (first : AssignToReferences parts)
    (second : AssignToReferences others) : AssignToReferences (parts ++ others) :=
  List.forall_mem_append.mpr ⟨first, second⟩

/-- Whether an expression stands for a cell: a reference or an element, perhaps behind a sign
or behind definitions. -/
def Expr.isCell : Expr → Bool
  | .name .. | .binary _ .index _ _ => true
  | .unary _ .plus operand => operand.isCell
  | .whereIn _ _ inner => inner.isCell
  | _ => false

def Expr.assignsToCell : Expr → Bool
  | .binary _ .assign target _ => target.isCell
  | _ => true

def AssignToCells (parts : List Expr) : Prop :=
  ∀ part ∈ parts, part.assignsToCell = true

instance (parts : List Expr) : Decidable (AssignToCells parts) :=
  inferInstanceAs (Decidable (∀ part ∈ parts, part.assignsToCell = true))

namespace AssignToCells

variable {part : Expr} {parts others : List Expr}

theorem mono (assign : AssignToCells parts) (includes : others ⊆ parts) : AssignToCells others :=
  fun part member => assign part (includes member)

theorem left (both : AssignToCells (parts ++ others)) : AssignToCells parts :=
  both.mono (List.subset_append_left ..)

theorem right (both : AssignToCells (parts ++ others)) : AssignToCells others :=
  both.mono (List.subset_append_right ..)

/-- What holds of an expression and the ones in it holds of the ones in it. -/
theorem within (whole : AssignToCells (part :: parts)) : AssignToCells parts :=
  whole.mono (List.subset_cons_self ..)

end AssignToCells

theorem Expr.assignsToCell_of_assignsToReference {part : Expr}
    (assigns : part.assignsToReference = true) : part.assignsToCell = true := by
  unfold Expr.assignsToReference Expr.isReference at assigns
  unfold Expr.assignsToCell Expr.isCell
  grind

theorem AssignToReferences.toCells {parts : List Expr} (assign : AssignToReferences parts) :
    AssignToCells parts :=
  fun part member => Expr.assignsToCell_of_assignsToReference (assign part member)

end TreeBackend.Source
