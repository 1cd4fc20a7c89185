import TreeBackend.Proofs.Frame.Walk
import TreeBackend.Proofs.Source.Parts
import TreeBackend.Source.Assembly

/-!
# Constructing programs step by step

A program is put together in steps, in any order, each of which is given what earlier steps have
handed out.  A step that makes a node says what the node refers to and what type it has, and
leaves everything else as it is; so what is known about a node when it is made is known about it
ever after.
-/

namespace TreeBackend.Source

/-- What a step of the construction of a program hands out. -/
inductive Product where
  | binding (binding : Binding)
  | header (header : FunctionHeader)
  | expr (expression : Expr)
  | definition (definition : Def)

/-- The number of a definition. -/
def Def.id : Def → NodeId
  | .function node _ _ _ | .var node _ | .typeAlias node _ => node.id

namespace Product

/-- The number of the node that something stands for. -/
def id : Product → NodeId
  | .binding owned => owned.id
  | .header declared => declared.id
  | .expr expression => expression.id
  | .definition defined => defined.id

def parts : Product → List Expr
  | .binding _ | .header _ => []
  | .expr expression => expression.parts
  | .definition defined => defined.parts

/-- The variables and parameters in something have types, wherever it stands. -/
def IsTyped (resolution : Resolution) : Product → Prop
  | .binding owned => (resolution.typeOf? owned.id).isSome = true
  | .header declared =>
      ∀ parameter ∈ declared.parameters, (resolution.typeOf? parameter.id).isSome = true
  | .expr expression => ∀ around, Layout.Typed resolution (expression.contents around)
  | .definition defined => ∀ around, Layout.Typed resolution (defined.contents around)

end Product

/-- A step of the construction of a program, with what it is given. -/
inductive Step where
  | declareVariable (name : String) (ty : Ty)
  | declareParameter (name : String) (ty : Ty)
  | defineVariable (binding : Binding)
  | aliasType (name : String) (ty : Ty)
  | declareFunction (name : String) (parameters : List Binding) (result : Ty)
  | defineFunction (header : FunctionHeader) (body : Expr)
  | int (value : Int)
  | log (truth : Bool)
  | str (text : String)
  | name (binding : Binding)
  | binary (operator : BinaryOperator) (left right : Expr)
  | unary (operator : UnaryOperator) (operand : Expr)
  | call (callee : FunctionHeader) (arguments : List Expr)
  | callBuiltin (builtin : Builtin) (arguments : List Expr)
  | block (items : List Expr)
  | ifThen (condition thenBranch : Expr)
  | ifThenElse (condition thenBranch elseBranch : Expr)
  | whileLoop (condition body : Expr)
  | forLoop (counter low high step body : Expr)
  | whereIn (inner : Expr) (definitions : List Def)

namespace Step

def perform : Step → Assembler Product
  | .declareVariable called ty => do return .binding (← Assembler.declareVariable called ty)
  | .declareParameter called ty => do return .binding (← Assembler.declareParameter called ty)
  | .defineVariable binding => return .definition binding.toDef
  | .aliasType called ty => do return .definition (← Assembler.aliasType called ty)
  | .declareFunction called parameters result => do
      return .header (← Assembler.declareFunction called parameters result)
  | .defineFunction header body => return .definition (Assembler.defineFunction header body)
  | .int value => do return .expr (← Assembler.int value)
  | .log truth => do return .expr (← Assembler.log truth)
  | .str text => do return .expr (← Assembler.str text)
  | .name binding => do return .expr (← Assembler.name binding)
  | .binary operator left right => do return .expr (← Assembler.binary operator left right)
  | .unary operator operand => do return .expr (← Assembler.unary operator operand)
  | .call callee arguments => do return .expr (← Assembler.call callee arguments)
  | .callBuiltin builtin arguments => do
      return .expr (← Assembler.callBuiltin builtin arguments)
  | .block items => do return .expr (← Assembler.block items)
  | .ifThen condition thenBranch => do return .expr (← Assembler.ifThen condition thenBranch)
  | .ifThenElse condition thenBranch elseBranch => do
      return .expr (← Assembler.ifThenElse condition thenBranch elseBranch)
  | .whileLoop condition body => do return .expr (← Assembler.whileLoop condition body)
  | .forLoop counter low high step body => do
      return .expr (← Assembler.forLoop counter low high step body)
  | .whereIn inner definitions => do return .expr (← Assembler.whereIn inner definitions)

def takes : Step → List Product
  | .declareVariable .. | .declareParameter .. | .aliasType .. | .int _ | .log _ | .str _ => []
  | .defineVariable binding | .name binding => [.binding binding]
  | .declareFunction _ parameters _ => parameters.map .binding
  | .defineFunction header body => [.header header, .expr body]
  | .binary _ left right => [.expr left, .expr right]
  | .unary _ operand => [.expr operand]
  | .call callee arguments => .header callee :: arguments.map .expr
  | .callBuiltin _ arguments => arguments.map .expr
  | .block items => items.map .expr
  | .ifThen condition thenBranch => [.expr condition, .expr thenBranch]
  | .ifThenElse condition thenBranch elseBranch =>
      [.expr condition, .expr thenBranch, .expr elseBranch]
  | .whileLoop condition body => [.expr condition, .expr body]
  | .forLoop counter low high step body =>
      [.expr counter, .expr low, .expr high, .expr step, .expr body]
  | .whereIn inner definitions => .expr inner :: definitions.map .definition

/-- Whether a step makes a node. The definitions of variables and functions have the nodes of
their declarations. -/
def makesNode : Step → Bool
  | .defineVariable _ | .defineFunction .. => false
  | _ => true

/-! ### What a step does -/

/-- What a step hands out, given the node that it makes. -/
def product (node : Node) : Step → Product
  | .declareVariable called _ | .declareParameter called _ => .binding ⟨node.id, called⟩
  | .defineVariable binding => .definition binding.toDef
  | .aliasType called _ => .definition (.typeAlias node called)
  | .declareFunction called parameters _ => .header ⟨node.id, called, parameters⟩
  | .defineFunction header body => .definition (Assembler.defineFunction header body)
  | .int value => .expr (.literal node (.int value))
  | .log truth => .expr (.literal node (.log truth))
  | .str text => .expr (.literal node (.str text))
  | .name binding => .expr (.name node binding.name)
  | .binary operator left right => .expr (.binary node operator left right)
  | .unary operator operand => .expr (.unary node operator operand)
  | .call callee arguments => .expr (.call node callee.name arguments)
  | .callBuiltin builtin arguments => .expr (.call node builtin.name arguments)
  | .block items => .expr (.block node items)
  | .ifThen condition thenBranch => .expr (.ifThen node condition thenBranch)
  | .ifThenElse condition thenBranch elseBranch =>
      .expr (.ifThenElse node condition thenBranch elseBranch)
  | .whileLoop condition body => .expr (.whileLoop node condition body)
  | .forLoop counter low high step body => .expr (.forLoop node counter low high step body)
  | .whereIn inner definitions => .expr (.whereIn node definitions inner)

def bound? : Step → Option NodeId
  | .name binding => some binding.id
  | .call callee _ => some callee.id
  | _ => none

/-- The type of the node of a step, given those of the nodes before it. -/
def ty? (typeOf? : NodeId → Option Ty) : Step → Option Ty
  | .declareVariable _ ty | .declareParameter _ ty | .aliasType _ ty => some ty
  | .declareFunction _ parameters result =>
      some (.function (parameters.map fun parameter => (typeOf? parameter.id).getD .void) result)
  | .defineVariable _ | .defineFunction .. => none
  | .int _ => some .int
  | .log _ => some .log
  | .str _ => some .str
  | .name binding => typeOf? binding.id
  | .binary operator left _ => Assembler.binaryType (typeOf? left.id) operator
  | .unary .not _ => some .log
  | .unary .plus _ | .unary .minus _ => some .int
  | .call callee _ => (typeOf? callee.id).bind Ty.result?
  | .callBuiltin builtin _ => some builtin.resultType
  | .block items => items.getLast?.bind fun last => typeOf? last.id
  | .ifThen .. | .ifThenElse .. | .whileLoop .. | .forLoop .. => some .void
  | .whereIn inner _ => typeOf? inner.id

end Step

/-- What is known with one more node, which may refer to a definition and have a type. -/
def Assembly.extend (assembly : Assembly) (bound? : Option NodeId) (ty? : Option Ty) : Assembly :=
  let typed :=
    match ty? with
    | some ty => assembly.resolution.setType assembly.nextId ty
    | none => assembly.resolution
  let resolution :=
    match bound? with
    | some definition => typed.bind assembly.nextId definition
    | none => typed
  ⟨assembly.nextId + 1, resolution⟩

/-- What is known behind a step. -/
def Step.after (step : Step) (assembly : Assembly) : Assembly :=
  if step.makesNode then assembly.extend step.bound? (step.ty? assembly.resolution.typeOf?)
  else assembly

theorem Assembler.mapM_typeOf? (bindings : List Binding) (assembly : Assembly) :
    (bindings.mapM fun binding => Assembler.typeOf? binding.id) assembly =
      (bindings.map fun binding => assembly.resolution.typeOf? binding.id, assembly) := by
  induction bindings with
  | nil => rfl
  | cons binding rest ih =>
      rw [List.mapM_cons]
      change (let others := (rest.mapM fun other => Assembler.typeOf? other.id) assembly
        (assembly.resolution.typeOf? binding.id :: others.1, others.2)) = _
      rw [ih]
      rfl

/-- A step hands out its product with the next number, and makes known what it says about it. -/
theorem Step.perform_eq (step : Step) (assembly : Assembly) :
    step.perform assembly = (step.product ⟨assembly.nextId, {}⟩, step.after assembly) := by
  cases step with
  | declareFunction called parameters result =>
      change (let types :=
          (parameters.mapM fun parameter => Assembler.typeOf? parameter.id) assembly
        (Product.header ⟨types.2.nextId, called, parameters⟩,
          types.2.extend none (some (.function (types.1.map (·.getD .void)) result)))) = _
      rw [Assembler.mapM_typeOf?]
      dsimp only
      rw [List.map_map]
      rfl
  | unary operator operand => cases operator <;> rfl
  | block items =>
      cases found : items.getLast? with
      | none | some last =>
          simp only [Step.perform, Assembler.block, Step.after, Step.ty?, found]
          rfl
  | _ => rfl

/-! ### What a step leaves as it is -/

namespace Assembly

/-- Nothing is known yet about the nodes that are still to be made. -/
def IsFresh (assembly : Assembly) : Prop :=
  ∀ id, assembly.nextId ≤ id →
    assembly.resolution.definitionOf? id = none ∧ assembly.resolution.typeOf? id = none

/-- What was known about the nodes that were there is known about them still. -/
structure Extends (before after : Assembly) : Prop where
  nextId : before.nextId ≤ after.nextId
  definitions : ∀ id < before.nextId,
    after.resolution.definitionOf? id = before.resolution.definitionOf? id
  types : ∀ id < before.nextId, after.resolution.typeOf? id = before.resolution.typeOf? id

theorem Extends.refl (assembly : Assembly) : assembly.Extends assembly :=
  ⟨Nat.le_refl _, fun _ _ => rfl, fun _ _ => rfl⟩

theorem Extends.trans {before middle after : Assembly} (first : before.Extends middle)
    (second : middle.Extends after) : before.Extends after where
  nextId := Nat.le_trans first.nextId second.nextId
  definitions id old :=
    (second.definitions id (Nat.lt_of_lt_of_le old first.nextId)).trans (first.definitions id old)
  types id old :=
    (second.types id (Nat.lt_of_lt_of_le old first.nextId)).trans (first.types id old)

variable {assembly : Assembly} {id : NodeId}

theorem definitionOf?_extend (fresh : assembly.IsFresh) (bound? : Option NodeId)
    (ty? : Option Ty) (id : NodeId) :
    (assembly.extend bound? ty?).resolution.definitionOf? id =
      if assembly.nextId = id then bound? else assembly.resolution.definitionOf? id := by
  have unknown := (fresh assembly.nextId (Nat.le_refl _)).1
  split
  · next same =>
      subst same
      cases bound? <;> cases ty? <;> simp [extend, unknown]
  · next other => cases bound? <;> cases ty? <;> simp [extend, other]

theorem typeOf?_extend (fresh : assembly.IsFresh) (bound? : Option NodeId) (ty? : Option Ty)
    (id : NodeId) :
    (assembly.extend bound? ty?).resolution.typeOf? id =
      if assembly.nextId = id then ty? else assembly.resolution.typeOf? id := by
  have unknown := (fresh assembly.nextId (Nat.le_refl _)).2
  split
  · next same =>
      subst same
      cases bound? <;> cases ty? <;> simp [extend, unknown]
  · next other => cases bound? <;> cases ty? <;> simp [extend, other]

theorem isFresh_extend (fresh : assembly.IsFresh) (bound? : Option NodeId) (ty? : Option Ty) :
    (assembly.extend bound? ty?).IsFresh := by
  intro id later
  have beyond : assembly.nextId < id := later
  rw [definitionOf?_extend fresh, typeOf?_extend fresh, if_neg (Nat.ne_of_lt beyond),
    if_neg (Nat.ne_of_lt beyond)]
  exact fresh id (Nat.le_of_lt beyond)

theorem extends_extend (fresh : assembly.IsFresh) (bound? : Option NodeId) (ty? : Option Ty) :
    assembly.Extends (assembly.extend bound? ty?) where
  nextId := Nat.le_succ _
  definitions id old := by rw [definitionOf?_extend fresh, if_neg (Nat.ne_of_gt old)]
  types id old := by rw [typeOf?_extend fresh, if_neg (Nat.ne_of_gt old)]

end Assembly

namespace Step

variable {assembly : Assembly}

theorem isFresh_after (fresh : assembly.IsFresh) (step : Step) : (step.after assembly).IsFresh := by
  unfold after
  split
  · exact Assembly.isFresh_extend fresh _ _
  · exact fresh

theorem extends_after (fresh : assembly.IsFresh) (step : Step) :
    assembly.Extends (step.after assembly) := by
  unfold after
  split
  · exact Assembly.extends_extend fresh _ _
  · exact .refl assembly

theorem nextId_after_of_makesNode {step : Step} (makes : step.makesNode = true) :
    (step.after assembly).nextId = assembly.nextId + 1 := by
  rw [after, if_pos makes]
  rfl

theorem after_of_not_makesNode {step : Step} (makes : step.makesNode = false) :
    step.after assembly = assembly := by
  rw [after, makes]
  rfl

theorem known_after (fresh : assembly.IsFresh) {step : Step} (makes : step.makesNode = true) :
    (step.after assembly).resolution.definitionOf? assembly.nextId = step.bound? ∧
      (step.after assembly).resolution.typeOf? assembly.nextId =
        step.ty? assembly.resolution.typeOf? := by
  rw [after, if_pos makes, Assembly.definitionOf?_extend fresh, Assembly.typeOf?_extend fresh,
    if_pos rfl, if_pos rfl]
  exact ⟨rfl, rfl⟩

theorem id_product {step : Step} (makes : step.makesNode = true) (node : Node) :
    (step.product node).id = node.id := by
  cases step with
  | defineVariable _ | defineFunction _ _ => cases makes
  | _ => rfl

/-- A step that makes no node hands out something with a number that it is given. -/
theorem exists_takes_id_product {step : Step} (makes : step.makesNode = false) (node : Node) :
    ∃ taken ∈ step.takes, (step.product node).id = taken.id := by
  cases step with
  | defineVariable binding => exact ⟨_, List.mem_singleton_self _, rfl⟩
  | defineFunction header body => exact ⟨.header header, .head _, rfl⟩
  | _ => cases makes

/-- The type of a node depends on those of the nodes that the step is given. -/
theorem ty?_congr {first second : NodeId → Option Ty} {step : Step}
    (same : ∀ taken ∈ step.takes, first taken.id = second taken.id) :
    step.ty? first = step.ty? second := by
  cases step with
  | declareFunction called parameters result =>
      have types : parameters.map (fun parameter => (first parameter.id).getD .void) =
          parameters.map fun parameter => (second parameter.id).getD .void :=
        List.map_congr_left fun parameter member =>
          congrArg (·.getD .void) (same (.binding parameter) (List.mem_map_of_mem member))
      rw [ty?, ty?, types]
  | name binding => exact same (.binding binding) (.head _)
  | binary operator left right =>
      exact congrArg (Assembler.binaryType · operator) (same (.expr left) (.head _))
  | unary operator operand => cases operator <;> rfl
  | call callee arguments => exact congrArg (·.bind Ty.result?) (same (.header callee) (.head _))
  | block items =>
      cases found : items.getLast? with
      | none => simp [ty?, found]
      | some last =>
          have member := List.mem_of_getLast? found
          have lastSame := same (.expr last) (List.mem_map_of_mem member)
          rw [ty?, ty?, found]
          exact lastSame
  | whereIn inner definitions => exact same (.expr inner) (.head _)
  | _ => rfl

end Step

/-! ### What is in a product -/

theorem Expr.mem_partsOfList {part : Expr} {expressions : List Expr} :
    part ∈ Expr.partsOfList expressions ↔ ∃ expression ∈ expressions, part ∈ expression.parts := by
  induction expressions with
  | nil => simp [Expr.partsOfList]
  | cons expression rest ih => simp [Expr.partsOfList, ih]

theorem Def.mem_partsOfList {part : Expr} {definitions : List Def} :
    part ∈ Def.partsOfList definitions ↔ ∃ definition ∈ definitions, part ∈ definition.parts := by
  induction definitions with
  | nil => simp [Def.partsOfList]
  | cons definition rest ih => simp [Def.partsOfList, ih]

section Typed

variable {resolution : Resolution}

theorem typed_of_ownedIds_eq_nil {contents : Contents} (none : contents.ownedIds = []) :
    Layout.Typed resolution contents := by
  rw [Layout.Typed, none]
  exact List.forall_mem_nil _

theorem Expr.typed_contentsOfList {around : List NodeId} {expressions : List Expr}
    (typed : ∀ expression ∈ expressions, Layout.Typed resolution (expression.contents around)) :
    Layout.Typed resolution (Expr.contentsOfList around expressions) := by
  induction expressions with
  | nil => exact typed_of_ownedIds_eq_nil rfl
  | cons expression rest ih =>
      obtain ⟨head, others⟩ := List.forall_mem_cons.mp typed
      exact Layout.typed_append.mpr ⟨head, ih others⟩

theorem Def.typed_contentsOfList {around : List NodeId} {definitions : List Def}
    (typed : ∀ definition ∈ definitions, Layout.Typed resolution (definition.contents around)) :
    Layout.Typed resolution (Def.contentsOfList around definitions) := by
  induction definitions with
  | nil => exact typed_of_ownedIds_eq_nil rfl
  | cons definition rest ih =>
      obtain ⟨head, others⟩ := List.forall_mem_cons.mp typed
      exact Layout.typed_append.mpr ⟨head, ih others⟩

end Typed

theorem Assembly.Extends.isSome_typeOf? {before after : Assembly} (extended : before.Extends after)
    (fresh : before.IsFresh) {id : NodeId} (typed : (before.resolution.typeOf? id).isSome = true) :
    (after.resolution.typeOf? id).isSome = true := by
  have old : id < before.nextId := by
    by_contra later
    rw [(fresh id (Nat.le_of_not_lt later)).2] at typed
    cases typed
  rwa [extended.types id old]

theorem Product.IsTyped.extends {before after : Assembly} {product : Product}
    (typed : product.IsTyped before.resolution) (extended : before.Extends after)
    (fresh : before.IsFresh) : product.IsTyped after.resolution := by
  cases product with
  | binding owned => exact extended.isSome_typeOf? fresh typed
  | header declared =>
      exact fun parameter member => extended.isSome_typeOf? fresh (typed parameter member)
  | expr expression =>
      exact fun around id isOwned => extended.isSome_typeOf? fresh (typed around id isOwned)
  | definition defined =>
      exact fun around id isOwned => extended.isSome_typeOf? fresh (typed around id isOwned)

namespace Step

/-- The expressions in what a step hands out are that itself, and those in what it is given. -/
theorem mem_parts_product {step : Step} {node : Node} {part : Expr} :
    part ∈ (step.product node).parts ↔
      (step.makesNode = true ∧ step.product node = .expr part) ∨
        ∃ taken ∈ step.takes, part ∈ taken.parts := by
  cases step <;>
    simp [product, makesNode, takes, Product.parts, Expr.parts, Def.parts, Binding.toDef,
      Assembler.defineFunction, Expr.mem_partsOfList, Def.mem_partsOfList, eq_comm, or_comm]

theorem isTyped_product {resolution : Resolution} {step : Step} {node : Node}
    (given : ∀ taken ∈ step.takes, taken.IsTyped resolution)
    (own : step.makesNode = true → ∃ typeOf?, resolution.typeOf? node.id = step.ty? typeOf?) :
    (step.product node).IsTyped resolution := by
  have each {expressions : List Expr}
      (given : ∀ taken ∈ expressions.map Product.expr, taken.IsTyped resolution)
      (around : List NodeId) :
      Layout.Typed resolution (Expr.contentsOfList around expressions) :=
    Expr.typed_contentsOfList fun expression member =>
      given (.expr expression) (List.mem_map_of_mem member) around
  cases step with
  | declareVariable called ty | declareParameter called ty =>
      obtain ⟨_, same⟩ := own rfl
      exact Option.isSome_of_mem same
  | defineVariable binding =>
      intro around id isOwned
      obtain rfl : id = binding.id := by
        simpa [Contents.ownedIds, Def.contents, Binding.toDef] using isOwned
      exact given (.binding binding) (.head _)
  | declareFunction called parameters result =>
      exact fun parameter member => given (.binding parameter) (List.mem_map_of_mem member)
  | defineFunction header body =>
      intro around id isOwned
      have inside := Contents.ownedIds_ofFunction ⟨⟨header.id, {}⟩, header.name,
        header.parameters.map Binding.toParameter, body, around⟩
      rcases List.mem_append.mp (inside ▸ isOwned) with isParameter | isInner
      · obtain ⟨parameter, member, rfl⟩ : ∃ parameter ∈ header.parameters, parameter.id = id := by
          simpa [Binding.toParameter] using isParameter
        exact given (.header header) (.head _) parameter member
      · exact given (.expr body) (.tail _ (.head _)) _ id isInner
  | aliasType | int | log | str | name => exact fun _ => typed_of_ownedIds_eq_nil rfl
  | unary operator operand => exact given (.expr operand) (.head _)
  | call callee arguments =>
      exact fun around => Layout.typed_append.mpr ⟨typed_of_ownedIds_eq_nil rfl,
        each (fun taken member => given taken (.tail _ member)) around⟩
  | callBuiltin builtin arguments =>
      exact fun around => Layout.typed_append.mpr ⟨typed_of_ownedIds_eq_nil rfl, each given around⟩
  | block items => exact each given
  | binary _ _ _ | ifThen _ _ | whileLoop _ _ =>
      simp only [takes, List.forall_mem_cons] at given
      obtain ⟨first, second, -⟩ := given
      exact fun around => Layout.typed_append.mpr ⟨first around, second around⟩
  | ifThenElse condition thenBranch elseBranch =>
      simp only [takes, List.forall_mem_cons] at given
      obtain ⟨first, second, third, -⟩ := given
      exact fun around => Layout.typed_append.mpr
        ⟨Layout.typed_append.mpr ⟨first around, second around⟩, third around⟩
  | forLoop counter low high step body =>
      simp only [takes, List.forall_mem_cons] at given
      obtain ⟨first, second, third, fourth, fifth, -⟩ := given
      intro around
      have upToLow := Layout.typed_append.mpr ⟨first around, second around⟩
      have upToHigh := Layout.typed_append.mpr ⟨upToLow, third around⟩
      have upToStep := Layout.typed_append.mpr ⟨upToHigh, fourth around⟩
      exact Layout.typed_append.mpr ⟨upToStep, fifth around⟩
  | whereIn inner definitions =>
      exact fun around => Layout.typed_append.mpr ⟨Def.typed_contentsOfList fun definition member =>
        given (.definition definition) (.tail _ (List.mem_map_of_mem member)) around,
        given (.expr inner) (.head _) around⟩

end Step

/-! ### Constructions -/

/-- A program under construction, with the steps taken so far and what they have handed out. -/
structure Construction where
  assembly : Assembly := {}
  history : List (Step × Product) := []

namespace Construction

/-- All that has been handed out. -/
def products (construction : Construction) : List Product := construction.history.map (·.2)

/-- The numbers of the nodes that have been made. -/
def numbers (construction : Construction) : List NodeId :=
  (construction.history.filter (·.1.makesNode)).map (·.2.id)

/-- Takes one more step. -/
def take (construction : Construction) (step : Step) : Construction :=
  let made := step.perform construction.assembly
  ⟨made.2, construction.history ++ [(step, made.1)]⟩

/-- One construction leads to another by any steps that are given only what has been handed out. -/
inductive Leads (start : Construction) : Construction → Prop
  | refl : Leads start start
  | take {reached : Construction} (leads : Leads start reached) (step : Step)
      (given : step.takes ⊆ reached.products) : Leads start (reached.take step)

/-- All that has been handed out so far goes together with what is known. -/
structure IsSound (construction : Construction) : Prop where
  fresh : construction.assembly.IsFresh
  numbers : construction.numbers = List.range construction.assembly.nextId
  /-- Everything stands for a node that has been made. -/
  old : ∀ product ∈ construction.products, product.id < construction.assembly.nextId
  /-- What is known about a node is what the step said about it that made it. -/
  made : ∀ entry ∈ construction.history, ∃ node, entry.2 = entry.1.product node ∧
    (entry.1.makesNode = true →
      construction.assembly.resolution.definitionOf? node.id = entry.1.bound? ∧
      construction.assembly.resolution.typeOf? node.id =
        entry.1.ty? construction.assembly.resolution.typeOf?)
  given : ∀ entry ∈ construction.history, entry.1.takes ⊆ construction.products
  /-- The expressions in something have all been handed out. -/
  parts : ∀ product ∈ construction.products, ∀ part ∈ product.parts,
    .expr part ∈ construction.products
  typed : ∀ product ∈ construction.products, product.IsTyped construction.assembly.resolution

theorem isSound_empty : ({} : Construction).IsSound where
  fresh _ _ := ⟨rfl, rfl⟩
  numbers := rfl
  old := List.forall_mem_nil _
  made := List.forall_mem_nil _
  given := List.forall_mem_nil _
  parts := List.forall_mem_nil _
  typed := List.forall_mem_nil _

variable {construction : Construction} {step : Step}

theorem take_eq (construction : Construction) (step : Step) :
    construction.take step = ⟨step.after construction.assembly,
      construction.history ++ [(step, step.product ⟨construction.assembly.nextId, {}⟩)]⟩ := by
  rw [take, step.perform_eq]

theorem products_take (construction : Construction) (step : Step) :
    (construction.take step).products =
      construction.products ++ [step.product ⟨construction.assembly.nextId, {}⟩] := by
  rw [take_eq, products, List.map_append]
  rfl

theorem numbers_take (construction : Construction) (step : Step) :
    (construction.take step).numbers =
      construction.numbers ++ if step.makesNode then [construction.assembly.nextId] else [] := by
  rw [take_eq, numbers, List.filter_append, List.map_append]
  cases makes : step.makesNode with
  | false => simp [numbers, makes]
  | true => simp [numbers, makes, Step.id_product makes]

/-- A step that is given only what has been handed out goes together with what is known. -/
theorem IsSound.take (sound : construction.IsSound) (given : step.takes ⊆ construction.products) :
    (construction.take step).IsSound := by
  have extended := Step.extends_after sound.fresh step
  have made : ∀ taken ∈ step.takes, taken.id < construction.assembly.nextId :=
    fun taken member => sound.old taken (given member)
  refine ⟨?_, ?_, ?_, ?_, ?_, ?_, ?_⟩
  · rw [take_eq]
    exact Step.isFresh_after sound.fresh step
  · rw [numbers_take, sound.numbers, take_eq]
    cases makes : step.makesNode with
    | false => simp [Step.after_of_not_makesNode makes]
    | true => simp [Step.nextId_after_of_makesNode makes, List.range_succ]
  · rw [products_take, take_eq, List.forall_mem_append, List.forall_mem_singleton]
    refine ⟨fun product member => Nat.lt_of_lt_of_le (sound.old product member) extended.nextId, ?_⟩
    cases makes : step.makesNode with
    | false =>
        obtain ⟨taken, member, same⟩ := Step.exists_takes_id_product makes
          ⟨construction.assembly.nextId, {}⟩
        rw [same, Step.after_of_not_makesNode makes]
        exact made taken member
    | true =>
        rw [Step.id_product makes, Step.nextId_after_of_makesNode makes]
        exact Nat.lt_succ_self _
  · rw [take_eq, List.forall_mem_append, List.forall_mem_singleton]
    -- the types in what a step says are those of nodes that are there, so they stay the same
    have same {other : Step} (given : other.takes ⊆ construction.products) :
        other.ty? (step.after construction.assembly).resolution.typeOf? =
          other.ty? construction.assembly.resolution.typeOf? :=
      Step.ty?_congr fun taken member => extended.types _ (sound.old taken (given member))
    refine ⟨fun entry member => ?_, _, rfl, fun makes => ?_⟩
    · obtain ⟨node, isProduct, known⟩ := sound.made entry member
      refine ⟨node, isProduct, fun makes => ?_⟩
      have old := sound.old entry.2 (List.mem_map_of_mem member)
      rw [isProduct, Step.id_product makes] at old
      rw [extended.definitions _ old, extended.types _ old, same (sound.given entry member)]
      exact known makes
    · rw [same given]
      exact Step.known_after sound.fresh makes
  · rw [products_take, take_eq, List.forall_mem_append, List.forall_mem_singleton]
    exact ⟨fun entry member => List.subset_append_of_subset_left _ (sound.given entry member),
      List.subset_append_of_subset_left _ given⟩
  · rw [products_take, List.forall_mem_append, List.forall_mem_singleton]
    refine ⟨fun product member part isPart =>
      List.mem_append_left _ (sound.parts product member part isPart), fun part isPart => ?_⟩
    rcases Step.mem_parts_product.mp isPart with ⟨-, same⟩ | ⟨taken, member, isPart⟩
    · exact List.mem_append_right _ (List.mem_singleton.mpr same.symm)
    · exact List.mem_append_left _ (sound.parts taken (given member) part isPart)
  · rw [products_take, List.forall_mem_append, List.forall_mem_singleton, take_eq]
    refine ⟨fun product member => (sound.typed product member).extends extended sound.fresh,
      Step.isTyped_product (fun taken member =>
        (sound.typed taken (given member)).extends extended sound.fresh) fun makes => ?_⟩
    exact ⟨_, (Step.known_after sound.fresh makes).2⟩

/-- However a construction is continued, it goes together with what is known. -/
theorem Leads.isSound {start reached : Construction} (leads : start.Leads reached)
    (sound : start.IsSound) : reached.IsSound := by
  induction leads with
  | refl => exact sound
  | take _ step given ih => exact ih.take given

/-- However a construction is continued, what is known about its nodes stays the same. -/
theorem Leads.extends {start reached : Construction} (leads : start.Leads reached)
    (sound : start.IsSound) : start.assembly.Extends reached.assembly := by
  induction leads with
  | refl => exact .refl _
  | take leads step given ih =>
      rw [take_eq]
      exact ih.trans (Step.extends_after (leads.isSound sound).fresh step)

end Construction

end TreeBackend.Source
