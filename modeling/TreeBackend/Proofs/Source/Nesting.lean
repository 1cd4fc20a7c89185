import Mathlib.Data.List.Pairwise
import TreeBackend.Proofs.Source.Contents

/-!
# Functions around functions

The functions around a function of a program are functions of the program, each with
those that follow it around itself.  So whatever lies around a function that lies around
another one also lies around that one.
-/

namespace TreeBackend.Source

/-! ### The innermost function around a function -/

/-- The functions of a list lie directly in a certain place, or each directly in another one
of them. -/
def NestIn (around : List NodeId) (functions : List Function) : Prop :=
  ∀ function ∈ functions, function.around = around ∨
    ∃ outer ∈ functions, function.around = outer.node.id :: outer.around

namespace NestIn

variable {around : List NodeId} {functions others : List Function}

theorem nil : NestIn around [] := by simp [NestIn]

theorem append (left : NestIn around functions) (right : NestIn around others) :
    NestIn around (functions ++ others) := by
  intro function member
  rcases List.mem_append.mp member with member | member
  · rcases left function member with direct | ⟨outer, isThere, same⟩
    · exact .inl direct
    · exact .inr ⟨outer, List.mem_append_left _ isThere, same⟩
  · rcases right function member with direct | ⟨outer, isThere, same⟩
    · exact .inl direct
    · exact .inr ⟨outer, List.mem_append_right _ isThere, same⟩

theorem function {function : Function}
    (inner : NestIn (function.node.id :: function.around) functions) :
    NestIn function.around (function :: functions) := by
  intro other member
  rcases List.mem_cons.mp member with rfl | member
  · exact .inl rfl
  · rcases inner other member with direct | ⟨outer, isThere, same⟩
    · exact .inr ⟨function, List.mem_cons_self .., direct⟩
    · exact .inr ⟨outer, List.mem_cons_of_mem _ isThere, same⟩

end NestIn

mutual

theorem Expr.nestIn_contents (around : List NodeId) : (expression : Expr) →
    NestIn around (expression.contents around).functions
  | .literal .. | .name .. => .nil
  | .unary _ _ operand => Expr.nestIn_contents around operand
  | .binary _ _ left right =>
      (Expr.nestIn_contents around left).append (Expr.nestIn_contents around right)
  | .call _ _ arguments => NestIn.nil.append (Expr.nestIn_contentsOfList around arguments)
  | .block _ items => Expr.nestIn_contentsOfList around items
  | .ifThen _ condition thenBranch =>
      (Expr.nestIn_contents around condition).append (Expr.nestIn_contents around thenBranch)
  | .ifThenElse _ condition thenBranch elseBranch =>
      ((Expr.nestIn_contents around condition).append
        (Expr.nestIn_contents around thenBranch)).append (Expr.nestIn_contents around elseBranch)
  | .whileLoop _ condition body =>
      (Expr.nestIn_contents around condition).append (Expr.nestIn_contents around body)
  | .forLoop _ counter low high step body =>
      ((((Expr.nestIn_contents around counter).append (Expr.nestIn_contents around low)).append
        (Expr.nestIn_contents around high)).append (Expr.nestIn_contents around step)).append
        (Expr.nestIn_contents around body)
  | .whereIn _ definitions inner =>
      (Def.nestIn_contentsOfList around definitions).append (Expr.nestIn_contents around inner)

theorem Expr.nestIn_contentsOfList (around : List NodeId) : (expressions : List Expr) →
    NestIn around (Expr.contentsOfList around expressions).functions
  | [] => .nil
  | expression :: rest =>
      (Expr.nestIn_contents around expression).append (Expr.nestIn_contentsOfList around rest)

theorem Def.nestIn_contents (around : List NodeId) : (definition : Def) →
    NestIn around (definition.contents around).functions
  | .function node name parameters body =>
      @NestIn.function _ ⟨node, name, parameters, body, around⟩
        (Expr.nestIn_contents (node.id :: around) body)
  | .var .. | .typeAlias .. => .nil

theorem Def.nestIn_contentsOfList (around : List NodeId) : (definitions : List Def) →
    NestIn around (Def.contentsOfList around definitions).functions
  | [] => .nil
  | definition :: rest =>
      (Def.nestIn_contents around definition).append (Def.nestIn_contentsOfList around rest)

end

/-! ### Functions by their numbers -/

namespace Program

variable {program : Program} {function other outer : Function}

/-- A function lies outside all others, or directly in another one. -/
theorem around_eq (member : function ∈ program.functions) : function.around = [] ∨
    ∃ outer ∈ program.functions, function.around = outer.node.id :: outer.around :=
  Def.nestIn_contentsOfList [] program.definitions function member

theorem eq_of_mem_ids (distinct : program.definitionIds.Nodup)
    (member : function ∈ program.functions) (otherMember : other ∈ program.functions) {id : NodeId}
    (isThere : id ∈ function.ids) (isOther : id ∈ other.ids) : function = other := by
  have apart : program.functions.Pairwise fun first second => first.ids.Disjoint second.ids :=
    (List.nodup_flatMap.mp (List.nodup_append'.mp distinct).2.1).2
  have symmetric : Std.Symm fun first second : Function => first.ids.Disjoint second.ids :=
    ⟨fun _ _ disjoint _ isSecond isFirst => disjoint isFirst isSecond⟩
  by_contra different
  exact apart.forall member otherMember different isThere isOther

theorem eq_of_id_eq (distinct : program.definitionIds.Nodup)
    (member : function ∈ program.functions) (otherMember : other ∈ program.functions)
    (same : function.node.id = other.node.id) : function = other :=
  eq_of_mem_ids distinct member otherMember (List.mem_cons_self ..)
    (same ▸ List.mem_cons_self ..)

theorem around_split (distinct : program.definitionIds.Nodup)
    (member : function ∈ program.functions) (outerMember : outer ∈ program.functions)
    (isAround : outer.node.id ∈ function.around) :
    ∃ between, function.around = between ++ outer.node.id :: outer.around := by
  induction deep : function.around.length generalizing function with
  | zero =>
      rw [List.eq_nil_of_length_eq_zero deep] at isAround
      cases isAround
  | succ deeper ih =>
      rcases around_eq member with outermost | ⟨next, nextMember, same⟩
      · rw [outermost] at isAround
        cases isAround
      · rw [same] at isAround ⊢
        rcases List.mem_cons.mp isAround with isNext | isAround
        · obtain rfl := eq_of_id_eq distinct outerMember nextMember isNext
          exact ⟨[], rfl⟩
        · obtain ⟨between, split⟩ := ih nextMember isAround (by simpa [same] using deep)
          exact ⟨next.node.id :: between, by rw [split, List.cons_append]⟩

theorem exists_of_mem_around (member : function ∈ program.functions) {id : NodeId}
    (isAround : id ∈ function.around) : ∃ outer ∈ program.functions, outer.node.id = id := by
  induction deep : function.around.length generalizing function with
  | zero =>
      rw [List.eq_nil_of_length_eq_zero deep] at isAround
      cases isAround
  | succ deeper ih =>
      rcases around_eq member with outermost | ⟨next, nextMember, same⟩
      · rw [outermost] at isAround
        cases isAround
      · rw [same] at isAround
        rcases List.mem_cons.mp isAround with rfl | isAround
        · exact ⟨next, nextMember, rfl⟩
        · exact ih nextMember isAround (by simpa [same] using deep)

/-- A function around another one is less deep. -/
theorem depth_lt (distinct : program.definitionIds.Nodup)
    (member : function ∈ program.functions) (outerMember : outer ∈ program.functions)
    (isAround : outer.node.id ∈ function.around) : outer.depth < function.depth := by
  obtain ⟨between, split⟩ := around_split distinct member outerMember isAround
  simp only [Function.depth, split, List.length_append, List.length_cons]
  omega

/-- The depths of two functions tell how far out the one lies around the other. -/
theorem getElem?_around (distinct : program.definitionIds.Nodup)
    (member : function ∈ program.functions) (outerMember : outer ∈ program.functions)
    (isThere : outer.node.id ∈ function.node.id :: function.around) :
    (function.node.id :: function.around)[function.depth - outer.depth]? = some outer.node.id := by
  rcases List.mem_cons.mp isThere with same | isAround
  · rw [eq_of_id_eq distinct outerMember member same, Nat.sub_self]
    rfl
  · obtain ⟨between, split⟩ := around_split distinct member outerMember isAround
    have hops : function.depth - outer.depth = between.length + 1 := by
      simp only [Function.depth, split, List.length_append, List.length_cons]
      omega
    rw [hops, List.getElem?_cons_succ, split]
    simp

/-- One step further in lies a function directly in the one that is there. -/
theorem exists_inner (distinct : program.definitionIds.Nodup)
    (member : function ∈ program.functions) (outerMember : outer ∈ program.functions) {hops : Nat}
    (isThere : (function.node.id :: function.around)[hops + 1]? = some outer.node.id) :
    ∃ inner ∈ program.functions,
      (function.node.id :: function.around)[hops]? = some inner.node.id ∧
        inner.around = outer.node.id :: outer.around := by
  rw [List.getElem?_cons_succ] at isThere
  induction hops generalizing function with
  | zero =>
      rcases around_eq member with outermost | ⟨next, nextMember, same⟩
      · simp [outermost] at isThere
      · have isOuter : next.node.id = outer.node.id := by simpa [same] using isThere
        obtain rfl := eq_of_id_eq distinct nextMember outerMember isOuter
        exact ⟨function, member, rfl, same⟩
  | succ hops ih =>
      rcases around_eq member with outermost | ⟨next, nextMember, same⟩
      · simp [outermost] at isThere
      · rw [same, List.getElem?_cons_succ] at isThere
        obtain ⟨inner, innerMember, found, direct⟩ := ih nextMember isThere
        exact ⟨inner, innerMember, by rw [List.getElem?_cons_succ, same, found], direct⟩

end Program

end TreeBackend.Source
