import Mathlib.Data.List.Nodup
import TreeBackend.Proofs.Flattening.Plain
import TreeBackend.Proofs.Flattening.Supply

/-!
# What code may store and call

A discipline says to which cells code may store, where it may save the frame pointer, and
what it may call with which static link.  Flat code computes an address or a link on the
spot, or takes it from a temporary to which it was moved before; since no two statements
move something to the same temporary, it does not matter where the run has come from.

A tree keeps a discipline if its flattened form does.  There is one rule for each construct.
-/

namespace TreeBackend

open IR (Expr Stmt Temp TempSupply)

/-! ### Calls and targets -/

mutual

def IR.Expr.calls : Expr → List (Label × List Expr)
  | .const _ | .name _ | .temp _ | .eseq .. => []
  | .mem address => address.calls
  | .binop _ left right => left.calls ++ right.calls
  | .call label arguments => (label, arguments) :: IR.Expr.callsOfList arguments

def IR.Expr.callsOfList : List Expr → List (Label × List Expr)
  | [] => []
  | expression :: rest => expression.calls ++ IR.Expr.callsOfList rest

end

/-- The calls in a plain statement. -/
def IR.Stmt.calls : Stmt → List (Label × List Expr)
  | .cjump condition _ _ => condition.calls
  | .exp value => value.calls
  | .move target source => target.calls ++ source.calls
  | .label _ | .jump _ | .seq _ => []

/-- The temporary to which a plain statement moves something. -/
def IR.Stmt.target? : Stmt → Option Temp
  | .move (.temp temp) _ => some temp
  | _ => none

theorem IR.Expr.mem_callsOfList {expressions : List Expr} {call : Label × List Expr} :
    call ∈ IR.Expr.callsOfList expressions ↔
      ∃ expression ∈ expressions, call ∈ expression.calls := by
  induction expressions with
  | nil => simp [IR.Expr.callsOfList]
  | cons expression rest ih => simp [IR.Expr.callsOfList, ih]

theorem IR.Expr.calls_of_isFixed {value : Expr} (fixed : value.isFixed = true) :
    value.calls = [] := by
  cases value <;> simp_all [IR.Expr.isFixed, IR.Expr.calls]

/-! ### Allowed code -/

/-- What code may store and call. -/
structure Discipline where
  /-- The addresses of the cells to which code may store. -/
  isCell : Expr → Prop
  /-- The offsets at which code may save the frame pointer. -/
  isSaved : Int → Prop
  /-- The labels that code may call, with a static link and a number of arguments. -/
  isCall : Label → Expr → Nat → Prop

/-- In certain code, a value stands for an expression: it is the expression, or a temporary
to which the expression is moved. -/
def StandsFor (code : List Stmt) (value expression : Expr) : Prop :=
  value = expression ∨ ∃ temp, value = .temp temp ∧ .move (.temp temp) expression ∈ code

namespace Discipline

variable (discipline : Discipline) (code : List Stmt)

def AllowsCall (call : Label × List Expr) : Prop :=
  ∃ link value rest, call.2 = value :: rest ∧ StandsFor code value link ∧
    discipline.isCall call.1 link rest.length

/-- A store to an address is allowed in certain code. -/
def AllowsPlace (place : Expr) : Prop :=
  (∃ cell, discipline.isCell cell ∧ StandsFor code place cell) ∨
    ∃ offset, discipline.isSaved offset ∧ place = .binop .sub .stackPointer (.const offset)

def AllowsCalls (calls : List (Label × List Expr)) : Prop :=
  ∀ call ∈ calls, discipline.AllowsCall code call

/-- A statement is allowed in certain code. -/
structure Allows (statement : Stmt) : Prop where
  calls : discipline.AllowsCalls code statement.calls
  place : ∀ address source, statement = .move (.mem address) source →
    discipline.AllowsPlace code address

end Discipline

section Code

variable {discipline : Discipline} {code more : List Stmt}

/-- A statement without calls that stores only where it may. -/
theorem Discipline.Allows.quiet {statement : Stmt} (noCalls : statement.calls = [])
    (place : ∀ address source, statement = .move (.mem address) source →
      discipline.AllowsPlace code address) : discipline.Allows code statement :=
  ⟨by simp [Discipline.AllowsCalls, noCalls], place⟩

theorem StandsFor.mono {value expression : Expr} (stands : StandsFor code value expression)
    (includes : code ⊆ more) : StandsFor more value expression :=
  stands.imp_right fun ⟨temp, same, moved⟩ => ⟨temp, same, includes moved⟩

theorem StandsFor.refl (code : List Stmt) (expression : Expr) :
    StandsFor code expression expression := .inl rfl

end Code

/-! ### Drawn temporaries -/

/-- The numbers of one kind are those of two others that have none in common. -/
structure Splits (kind first second : Nat → Prop) : Prop where
  apart : ∀ number, first number → ¬second number
  isFirst : ∀ number, first number → kind number
  isSecond : ∀ number, second number → kind number

theorem Splits.right (kind : Nat → Prop) : Splits kind (fun _ => False) kind :=
  ⟨fun _ => False.elim, fun _ => False.elim, fun _ => id⟩

theorem Splits.left (kind : Nat → Prop) : Splits kind kind (fun _ => False) :=
  ⟨fun _ _ => id, fun _ => id, fun _ => False.elim⟩

theorem Splits.or {first second : Nat → Prop} (apart : ∀ number, first number → ¬second number) :
    Splits (fun number => first number ∨ second number) first second :=
  ⟨apart, fun _ => .inl, fun _ => .inr⟩

/-- Each temporary is the target of at most one statement, and has a number of a kind. -/
structure DrawnOnce (kind : Nat → Prop) (code : List Stmt) : Prop where
  once : (code.filterMap Stmt.target?).Nodup
  drawn : ∀ temp ∈ code.filterMap Stmt.target?, kind temp.number

namespace DrawnOnce

variable {kind first second : Nat → Prop} {code others : List Stmt}

theorem nil : DrawnOnce kind [] := ⟨.nil, by simp⟩

theorem append (left : DrawnOnce first code) (right : DrawnOnce second others)
    (splits : Splits kind first second) : DrawnOnce kind (code ++ others) where
  once := by
    rw [List.filterMap_append]
    exact List.nodup_append'.mpr ⟨left.once, right.once, fun temp isLeft isRight =>
      splits.apart _ (left.drawn temp isLeft) (right.drawn temp isRight)⟩
  drawn temp member := by
    rw [List.filterMap_append] at member
    rcases List.mem_append.mp member with member | member
    · exact splits.isFirst _ (left.drawn temp member)
    · exact splits.isSecond _ (right.drawn temp member)

theorem mono (drawn : DrawnOnce first code) (isFirst : ∀ number, first number → kind number) :
    DrawnOnce kind code :=
  ⟨drawn.once, fun temp member => isFirst _ (drawn.drawn temp member)⟩

theorem move {temp : Temp} {source : Expr} (isDrawn : kind temp.number) :
    DrawnOnce kind [.move (.temp temp) source] :=
  ⟨by simp [Stmt.target?], by simpa [Stmt.target?] using isDrawn⟩

end DrawnOnce

abbrev Between (low high number : Nat) : Prop := low ≤ number ∧ number < high

theorem Splits.between {low middle high : Nat} (lower : low ≤ middle) (upper : middle ≤ high) :
    Splits (Between low high) (Between low middle) (Between middle high) :=
  ⟨fun _ => by omega, fun _ => by omega, fun _ => by omega⟩

/-- The numbers of temporaries that were drawn for a tree, or in flattening it. -/
abbrev DrawnFor (kind : Nat → Prop) (supply rest : TempSupply) (number : Nat) : Prop :=
  kind number ∨ Between supply.issued rest.issued number

/-! ### Trees -/

/-- Flat statements from a tree, and values behind them, keep a discipline in all code that
has them and certain statements before them. -/
structure KeepsFlat (discipline : Discipline) (base : List Stmt) (kind : Nat → Prop)
    (before : List Stmt) (values : List Expr) : Prop where
  drawn : DrawnOnce kind before
  allows : ∀ code, base ++ before ⊆ code → ∀ statement ∈ before, discipline.Allows code statement
  calls : ∀ code, base ++ before ⊆ code → ∀ value ∈ values, discipline.AllowsCalls code value.calls

/-- The flattened form of an expression, for which temporaries of a kind were drawn, keeps a
discipline. -/
structure KeepsExpr (discipline : Discipline) (kind : Nat → Prop) (expression : Expr) :
    Prop where
  flat : ∀ {supply rest : TempSupply} {flat : Flattened},
    (∀ number, kind number → number < supply.issued) →
      Flattening.ofExpr expression supply = .ok (flat, rest) →
        KeepsFlat discipline [] (DrawnFor kind supply rest) flat.before [flat.value]

/-- The flattened form of a statement keeps a discipline. -/
structure KeepsStmt (discipline : Discipline) (kind : Nat → Prop) (statement : Stmt) :
    Prop where
  flat : ∀ {supply rest : TempSupply} {flat : List Stmt},
    (∀ number, kind number → number < supply.issued) →
      Flattening.ofStmt statement supply = .ok (flat, rest) →
        KeepsFlat discipline [] (DrawnFor kind supply rest) flat []

def KeepsAll (discipline : Discipline) (kind : Nat → Prop) : List Expr → Prop
  | [] => True
  | operand :: rest => ∃ first others, KeepsExpr discipline first operand ∧
      KeepsAll discipline others rest ∧ Splits kind first others

namespace KeepsFlat

variable {discipline : Discipline} {base larger before others : List Stmt}
  {values more : List Expr} {kind first second : Nat → Prop}

theorem nil : KeepsFlat discipline base kind [] [] := ⟨.nil, by simp, by simp⟩

theorem append (left : KeepsFlat discipline base first before values)
    (right : KeepsFlat discipline (base ++ before) second others more)
    (splits : Splits kind first second) :
    KeepsFlat discipline base kind (before ++ others) (values ++ more) where
  drawn := left.drawn.append right.drawn splits
  allows code includes := by
    rw [← List.append_assoc] at includes
    have leftAllows := left.allows code (List.append_subset.mp includes).1
    exact List.forall_mem_append.mpr ⟨leftAllows, right.allows code includes⟩
  calls code includes := by
    rw [← List.append_assoc] at includes
    have leftCalls := left.calls code (List.append_subset.mp includes).1
    exact List.forall_mem_append.mpr ⟨leftCalls, right.calls code includes⟩

/-- More statements may stand before. -/
theorem behind (keeps : KeepsFlat discipline base kind before values) (includes : base ⊆ larger) :
    KeepsFlat discipline larger kind before values where
  drawn := keeps.drawn
  allows code isThere :=
    have ⟨isLarger, isBefore⟩ := List.append_subset.mp isThere
    keeps.allows code (List.append_subset.mpr ⟨List.Subset.trans includes isLarger, isBefore⟩)
  calls code isThere :=
    have ⟨isLarger, isBefore⟩ := List.append_subset.mp isThere
    keeps.calls code (List.append_subset.mpr ⟨List.Subset.trans includes isLarger, isBefore⟩)

theorem mono (keeps : KeepsFlat discipline base first before values)
    (isFirst : ∀ number, first number → kind number) :
    KeepsFlat discipline base kind before values :=
  ⟨keeps.drawn.mono isFirst, keeps.allows, keeps.calls⟩

/-- Values that are not used have no bearing. -/
theorem dropValues (keeps : KeepsFlat discipline base kind before values) :
    KeepsFlat discipline base kind before [] :=
  ⟨keeps.drawn, keeps.allows, by simp⟩

/-- Nothing but a value without calls. -/
theorem quiet {value : Expr} (noCalls : value.calls = []) :
    KeepsFlat discipline base kind [] [value] :=
  ⟨.nil, by simp, by simp [Discipline.AllowsCalls, noCalls]⟩

theorem concat {statement : Stmt} (keeps : KeepsFlat discipline base kind before values)
    (noTarget : statement.target? = none)
    (allowed : ∀ code, base ++ before ⊆ code → discipline.Allows code statement) :
    KeepsFlat discipline base kind (before ++ [statement]) [] where
  drawn := by
    have drawn := keeps.drawn
    exact ⟨by simpa [List.filterMap_append, noTarget] using drawn.once,
      by simpa [List.filterMap_append, noTarget] using drawn.drawn⟩
  allows code includes := by
    rw [← List.append_assoc] at includes
    have includes := (List.append_subset.mp includes).1
    exact List.forall_mem_append.mpr ⟨keeps.allows code includes,
      List.forall_mem_singleton.mpr (allowed code includes)⟩
  calls := by simp

end KeepsFlat

end TreeBackend
