import TreeBackend.Proofs.CompileErrors
import TreeBackend.Proofs.Source.Construction

/-!
# Compiling constructed programs

A program that was put together step by step carries all that compilation looks up: its
references and calls are bound, and its variables and parameters have types.  What is left to
object to is that definitions are left out of the tree or out of scope, that a subscript is
applied to something other than an array, that a value or a reference is needed where there is
none, and that an assignment goes to something other than a place.
-/

namespace TreeBackend

open Source

namespace Source.Construction

variable {construction : Construction} {definitions : List Def}

/-- The program that consists of the given definitions. -/
def finish (construction : Construction) (definitions : List Def) : Program :=
  ⟨definitions, construction.assembly.resolution⟩

/-- The numbers of the nodes that have been made are all different. -/
theorem IsSound.nodup_numbers (sound : construction.IsSound) : construction.numbers.Nodup := by
  rw [sound.numbers]
  exact List.nodup_range

theorem IsSound.lt_of_mem_numbers (sound : construction.IsSound) {id : NodeId}
    (member : id ∈ construction.numbers) : id < construction.assembly.nextId := by
  rw [sound.numbers] at member
  exact List.mem_range.mp member

/-- A reference is bound to what it was made from. -/
theorem IsSound.definitionOf?_name (sound : construction.IsSound) {binding : Binding}
    {product : Product} (entry : (Step.name binding, product) ∈ construction.history) :
    ∃ node, product = .expr (.name node binding.name) ∧
      construction.assembly.resolution.definitionOf? node.id = some binding.id := by
  obtain ⟨node, same, known⟩ := sound.made _ entry
  exact ⟨node, same, (known rfl).1⟩

/-- A call is bound to the function that it was made from. -/
theorem IsSound.definitionOf?_call (sound : construction.IsSound) {callee : FunctionHeader}
    {arguments : List Expr} {product : Product}
    (entry : (Step.call callee arguments, product) ∈ construction.history) :
    ∃ node, product = .expr (.call node callee.name arguments) ∧
      construction.assembly.resolution.definitionOf? node.id = some callee.id := by
  obtain ⟨node, same, known⟩ := sound.made _ entry
  exact ⟨node, same, (known rfl).1⟩

/-- An expression has been handed out by a step that made its node. -/
theorem IsSound.exists_step (sound : construction.IsSound) {part : Expr}
    (member : .expr part ∈ construction.products) :
    ∃ step node, (step, Product.expr part) ∈ construction.history ∧
      Product.expr part = step.product node ∧ (step.makesNode = true →
        construction.assembly.resolution.definitionOf? node.id = step.bound? ∧
        construction.assembly.resolution.typeOf? node.id =
          step.ty? construction.assembly.resolution.typeOf?) := by
  obtain ⟨⟨step, product⟩, entry, rfl⟩ := List.mem_map.mp member
  obtain ⟨node, same, known⟩ := sound.made _ entry
  exact ⟨step, node, entry, same, known⟩

theorem IsSound.definitionOf?_ne_none_of_name (sound : construction.IsSound) {node : Node}
    {called : String} (member : .expr (.name node called) ∈ construction.products) :
    construction.assembly.resolution.definitionOf? node.id ≠ none := by
  obtain ⟨step, made, -, same, known⟩ := sound.exists_step member
  cases step with
  | name binding =>
      obtain ⟨rfl, -⟩ := Expr.name.inj (Product.expr.inj same)
      rw [(known rfl).1]
      exact Option.some_ne_none _
  | _ => cases same

/-- A call that is bound to nothing is that of a builtin. -/
theorem IsSound.definitionOf?_ne_none_of_call (sound : construction.IsSound) {node : Node}
    {called : String} {arguments : List Expr}
    (member : .expr (.call node called arguments) ∈ construction.products)
    (notBuiltin : Builtin.ofName? called = none) :
    construction.assembly.resolution.definitionOf? node.id ≠ none := by
  obtain ⟨step, made, -, same, known⟩ := sound.exists_step member
  cases step with
  | call callee others =>
      obtain ⟨rfl, -⟩ := Expr.call.inj (Product.expr.inj same)
      rw [(known rfl).1]
      exact Option.some_ne_none _
  | callBuiltin builtin others =>
      obtain ⟨-, rfl, -⟩ := Expr.call.inj (Product.expr.inj same)
      rw [Builtin.ofName?_eq_some_iff.mpr rfl] at notBuiltin
      cases notBuiltin
  | _ => cases same

theorem IsSound.typeOf?_index (sound : construction.IsSound) {node : Node} {base index : Expr}
    (member : .expr (.binary node .index base index) ∈ construction.products) :
    construction.assembly.resolution.typeOf? node.id =
      (construction.assembly.resolution.typeOf? base.id).bind Ty.element? := by
  obtain ⟨step, made, -, same, known⟩ := sound.exists_step member
  cases step with
  | binary operator left right =>
      obtain ⟨rfl, rfl, rfl, rfl⟩ := Expr.binary.inj (Product.expr.inj same)
      exact (known rfl).2
  | _ => cases same

/-- All expressions of a program have been handed out. -/
theorem IsSound.mem_products_of_mem_parts (sound : construction.IsSound)
    (given : ∀ definition ∈ definitions, .definition definition ∈ construction.products)
    {part : Expr} (member : part ∈ (construction.finish definitions).parts) :
    .expr part ∈ construction.products := by
  obtain ⟨definition, isDefined, isPart⟩ := Def.mem_partsOfList.mp member
  exact sound.parts (.definition definition) (given definition isDefined) part isPart

/-- All variables and parameters of a program have types. -/
theorem IsSound.isTyped_finish (sound : construction.IsSound)
    (given : ∀ definition ∈ definitions, .definition definition ∈ construction.products) :
    (construction.finish definitions).isTyped = true :=
  List.all_eq_true.mpr (Def.typed_contentsOfList fun definition member =>
    sound.typed (.definition definition) (given definition member) [])

end Source.Construction

section Compile

variable {construction : Construction} {definitions : List Def}

/-- Compilation fails on a constructed program only with an objection to one of its
expressions. -/
theorem objectedIn_of_compile_finish (sound : construction.IsSound)
    (given : ∀ definition ∈ definitions, .definition definition ∈ construction.products)
    {problem : CompileError}
    (failed : compile (construction.finish definitions) = .error problem) :
    ObjectedIn (construction.finish definitions) (construction.finish definitions).partsByDepth
      problem := by
  refine (objectedIn_of_compile_eq_error failed).resolve_left ?_
  rintro ⟨untyped, -⟩
  rw [sound.isTyped_finish given] at untyped
  cases untyped

/-- All references and calls of a constructed program are bound. -/
theorem compile_finish_ne_missingDefinition (sound : construction.IsSound)
    (given : ∀ definition ∈ definitions, .definition definition ∈ construction.products)
    (name : String) (span : Span) :
    compile (construction.finish definitions) ≠
      .error (.located (.missingDefinition name) span) := by
  intro failed
  obtain ⟨⟨depth, part⟩, member, objection⟩ := objectedIn_of_compile_finish sound given failed
  have made := sound.mem_products_of_mem_parts given
    (Program.mem_parts_of_mem_partsByDepth member)
  cases objection with
  | unboundName unbound => exact sound.definitionOf?_ne_none_of_name made unbound
  | unboundCall notBuiltin unbound =>
      exact sound.definitionOf?_ne_none_of_call made notBuiltin unbound

/-- A type is missing only for a subscript whose base is not known to be an array. -/
theorem untyped_of_compile_finish (sound : construction.IsSound)
    (given : ∀ definition ∈ definitions, .definition definition ∈ construction.products)
    {what : String} {span : Span} (failed : compile (construction.finish definitions) =
      .error (.located (.missingType what) span)) :
    ∃ node base index, .binary node .index base index ∈ (construction.finish definitions).parts ∧
      node.span = span ∧
      (construction.assembly.resolution.typeOf? base.id).bind Ty.element? = none := by
  obtain ⟨⟨depth, part⟩, member, objection⟩ := objectedIn_of_compile_finish sound given failed
  have isPart := Program.mem_parts_of_mem_partsByDepth member
  have made := sound.mem_products_of_mem_parts given isPart
  cases objection with
  | untypedElement untyped =>
      exact ⟨_, _, _, isPart, rfl, (sound.typeOf?_index made).symm.trans untyped⟩

theorem compile_ne_callOutsideFunction (program : Program) (name : String) (span : Span) :
    compile program ≠ .error (.located (.callOutsideFunction name) span) := by
  intro failed
  rcases objectedIn_of_compile_eq_error failed with
    ⟨-, what, place, impossible⟩ | ⟨⟨depth, part⟩, -, objection⟩
  · cases impossible
  · cases objection

/-- A construction carries all that compilation needs, whatever steps are taken in whatever
order.  The numbers of its nodes are different; a reference is bound to what it was made from, and
a call to its callee, and no later step changes that.  Compilation of any of the definitions never
misses a binding and rejects no call for standing outside of all functions; it misses a type only
for a subscript whose base is not known to be an array.  Any other error is an objection to an
expression: something that it refers to is left out of the tree or out of scope, or the expression
has the wrong shape, or it is an assignment without a place to go to. -/
theorem constructed_program_compiles_or_is_objected_to
    (reached : Construction.Leads {} construction) :
    construction.numbers.Nodup ∧
    (∀ binding product, (Step.name binding, product) ∈ construction.history →
      ∃ node, product = .expr (.name node binding.name) ∧
        construction.assembly.resolution.definitionOf? node.id = some binding.id) ∧
    (∀ callee arguments product, (Step.call callee arguments, product) ∈ construction.history →
      ∃ node, product = .expr (.call node callee.name arguments) ∧
        construction.assembly.resolution.definitionOf? node.id = some callee.id) ∧
    (∀ later, construction.Leads later → ∀ id ∈ construction.numbers,
      later.assembly.resolution.definitionOf? id =
          construction.assembly.resolution.definitionOf? id ∧
        later.assembly.resolution.typeOf? id = construction.assembly.resolution.typeOf? id) ∧
    ∀ definitions, (∀ definition ∈ definitions, .definition definition ∈ construction.products) →
      ∀ problem, compile (construction.finish definitions) = .error problem →
        (∀ name span, problem ≠ .located (.missingDefinition name) span) ∧
        (∀ name span, problem ≠ .located (.callOutsideFunction name) span) ∧
        (∀ what span, problem = .located (.missingType what) span →
          ∃ node base index,
            .binary node .index base index ∈ (construction.finish definitions).parts ∧
            node.span = span ∧
            (construction.assembly.resolution.typeOf? base.id).bind Ty.element? = none) ∧
        ObjectedIn (construction.finish definitions)
          (construction.finish definitions).partsByDepth problem := by
  have sound := reached.isSound Construction.isSound_empty
  refine ⟨sound.nodup_numbers, fun _ _ entry => sound.definitionOf?_name entry,
    fun _ _ _ entry => sound.definitionOf?_call entry, fun later leads id member => ?_,
    fun definitions given problem failed => ⟨?_, ?_, ?_, ?_⟩⟩
  · have extended := leads.extends sound
    have old := sound.lt_of_mem_numbers member
    exact ⟨extended.definitions id old, extended.types id old⟩
  · rintro name span rfl
    exact compile_finish_ne_missingDefinition sound given name span failed
  · rintro name span rfl
    exact compile_ne_callOutsideFunction _ name span failed
  · rintro what span rfl
    exact untyped_of_compile_finish sound given failed
  · exact objectedIn_of_compile_finish sound given failed

/-- The subscript of an integer has no type, so a program with one is rejected for that reason. -/
theorem constructed_program_subscript_of_integer :
    let owned : Binding := ⟨0, "x"⟩
    let base : Source.Expr := .name ⟨1, {}⟩ "x"
    let subscript : Source.Expr := .binary ⟨2, {}⟩ .index base base
    let main : FunctionHeader := ⟨3, "main", []⟩
    let construction : Construction :=
      [Step.declareVariable "x" .int, .defineVariable owned, .name owned,
        .binary .index base base, .declareFunction "main" [] .int,
        .defineFunction main subscript].foldl Construction.take {}
    let program :=
      construction.finish [owned.toDef, Assembler.defineFunction main subscript]
    Construction.Leads {} construction ∧ construction.numbers.Nodup ∧
      compile program = .error (.located (.missingType "array element") {}) ∧
      ∃ node base index, .binary node .index base index ∈ program.parts ∧
        (construction.assembly.resolution.typeOf? base.id).bind Ty.element? = none := by
  intro owned base subscript main construction program
  have reached : Construction.Leads {} construction := by
    refine .take (.take (.take (.take (.take (.take .refl _ ?_) _ ?_) _ ?_) _ ?_) _ ?_) _ ?_
    · exact List.nil_subset _
    · exact List.cons_subset.mpr ⟨.head _, List.nil_subset _⟩
    · exact List.cons_subset.mpr ⟨.head _, List.nil_subset _⟩
    · have isBase : .expr base ∈ [Product.binding owned, .definition owned.toDef, .expr base] :=
        by simp
      exact List.cons_subset.mpr ⟨isBase, List.cons_subset.mpr ⟨isBase, List.nil_subset _⟩⟩
    · exact List.nil_subset _
    · exact (by simp : [.header main, .expr subscript] ⊆ [Product.binding owned,
        .definition owned.toDef, .expr base, .expr subscript, .header main])
  have products : construction.products = [.binding owned, .definition owned.toDef,
      .expr base, .expr subscript, .header main,
      .definition (Assembler.defineFunction main subscript)] := rfl
  have failed : compile program = .error (.located (.missingType "array element") {}) := rfl
  obtain ⟨distinct, -, -, -, errors⟩ := constructed_program_compiles_or_is_objected_to reached
  obtain ⟨-, -, untyped, -⟩ := errors _ (by simp [products]) _ failed
  obtain ⟨node, array, index, member, -, unknown⟩ := untyped _ _ rfl
  exact ⟨reached, distinct, failed, node, array, index, member, unknown⟩

end Compile

end TreeBackend
