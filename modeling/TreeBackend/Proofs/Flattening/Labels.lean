import TreeBackend.Proofs.Flattening.Events
import TreeBackend.Proofs.Flattening.Plain
import TreeBackend.Proofs.IR.Labels

/-!
# Labels in flattened code

Flattening brings the labels of a tree into the order in which the tree runs, and
neither adds nor loses one.
-/

namespace TreeBackend.Flattening

open IR (Expr Stmt Temp TempSupply Event)

/-- The labels among flat statements. -/
def definedLabels : List Stmt → List Label
  | [] => []
  | .label label :: rest => label :: definedLabels rest
  | _ :: rest => definedLabels rest

@[simp]
theorem definedLabels_append (first second : List Stmt) :
    definedLabels (first ++ second) = definedLabels first ++ definedLabels second := by
  induction first with
  | nil => rfl
  | cons statement rest ih => cases statement <;> simp [definedLabels, ih]

theorem mem_definedLabels {statements : List Stmt} {label : Label} :
    label ∈ definedLabels statements ↔ .label label ∈ statements := by
  induction statements with
  | nil => simp [definedLabels]
  | cons statement rest ih => cases statement <;> simp [definedLabels, ih]

theorem definedLabels_of_arePlain {statements : List Stmt} (plain : ArePlain statements) :
    definedLabels statements = Stmt.labelsOfList statements := by
  induction statements with
  | nil => rfl
  | cons statement rest ih =>
      have rest := ih fun other member => plain other (List.mem_cons_of_mem _ member)
      have own := plain statement (List.mem_cons_self ..)
      cases statement with
      | seq => cases own
      | label | jump => simp [definedLabels, Stmt.labelsOfList, Stmt.labels, rest]
      | cjump condition =>
          simp [definedLabels, Stmt.labelsOfList, Stmt.labels, rest,
            Expr.labels_of_isPlain condition own]
      | exp value =>
          simp [definedLabels, Stmt.labelsOfList, Stmt.labels, rest,
            Expr.labels_of_isPlain value own]
      | move target source =>
          rw [Stmt.isPlain, Bool.and_eq_true] at own
          simp [definedLabels, Stmt.labelsOfList, Stmt.labels, rest,
            Expr.labels_of_isPlain target own.1, Expr.labels_of_isPlain source own.2]

/-- A view of the places alone. -/
theorem overlooks_isLabel (bound : Nat) : Overlooks (fun event => event.label?.isSome) bound :=
  ⟨rfl, fun _ _ => rfl⟩

theorem ofStmt_labels (statement : Stmt) {flat : List Stmt} {supply rest : TempSupply}
    (flattened : ofStmt statement supply = .ok (flat, rest)) :
    definedLabels flat = statement.labels := by
  have seen (events : List Event) : events.filterMap Event.label? =
      (events.filter fun event => event.label?.isSome).filterMap Event.label? := by
    rw [List.filterMap_filter]
    congr 1
    funext event
    cases event.label? <;> rfl
  calc definedLabels flat
      = Stmt.labelsOfList flat := definedLabels_of_arePlain (ofStmt_arePlain statement flattened)
    _ = (Stmt.eventsOfList flat).filterMap Event.label? := Stmt.labelsOfList_eq_filterMap flat
    _ = statement.events.filterMap Event.label? := by
        rw [seen, ofStmt_events statement (overlooks_isLabel _) flattened, ← seen]
    _ = statement.labels := (Stmt.labels_eq_filterMap statement).symm

theorem mem_labels_of_mem_before {expression : Expr} {flat : Flattened} {supply rest : TempSupply}
    {label : Label} (flattened : ofExpr expression supply = .ok (flat, rest))
    (member : .label label ∈ flat.before) : label ∈ expression.labels := by
  have isEvent : .label label ∈ Flattened.events flat :=
    List.mem_append_left _ (Stmt.mem_eventsOfList.mpr ⟨_, member, List.mem_singleton_self _⟩)
  rw [Expr.labels_eq_filterMap]
  exact List.mem_filterMap.mpr ⟨_, (mem_events_expr flattened rfl).mp isEvent, rfl⟩

/-! ### Jumps -/

/-- All jumps of a piece of flat code go to places in it. -/
def JumpsInside (piece : List Stmt) : Prop :=
  ∀ statement ∈ piece, ∀ target ∈ statement.exits, .label target ∈ piece

namespace JumpsInside

theorem straight {piece : List Stmt} (noExits : ∀ statement ∈ piece, statement.exits = []) :
    JumpsInside piece := by
  intro statement member target isExit
  rw [noExits statement member] at isExit
  cases isExit

theorem append {first second : List Stmt} (left : JumpsInside first) (right : JumpsInside second) :
    JumpsInside (first ++ second) := by
  intro statement member target isExit
  rcases List.mem_append.mp member with member | member
  · exact List.mem_append_left _ (left statement member target isExit)
  · exact List.mem_append_right _ (right statement member target isExit)

end JumpsInside

/-- If the jumps of an expression go to places in it, then this holds of its statements. -/
theorem ofExpr_jumpsInside {expression : Expr} {flat : Flattened} {supply rest : TempSupply}
    (flattened : ofExpr expression supply = .ok (flat, rest))
    (targets : ∀ event ∈ expression.events, ∀ target ∈ event.targets,
      .label target ∈ expression.events) : JumpsInside flat.before := by
  intro statement member target isExit
  obtain ⟨event, isEvent, loud, isTarget⟩ := Stmt.exists_event_of_mem_exits isExit
  have inside : event ∈ Flattened.events flat :=
    List.mem_append_left _ (Stmt.mem_eventsOfList.mpr ⟨statement, member, isEvent⟩)
  have defined := targets event ((mem_events_expr flattened loud).mp inside) target isTarget
  have settled := ofExpr_isSettled expression flattened
  have plain : ArePlain flat.before := fun item isItem =>
    isPlain_of_isSettled (settled.before item isItem)
  rw [← mem_definedLabels, definedLabels_of_arePlain plain, Stmt.labelsOfList_eq_filterMap]
  refine List.mem_filterMap.mpr ⟨.label target, ?_, rfl⟩
  refine (List.mem_append.mp ((mem_events_expr flattened rfl).mpr defined)).resolve_right ?_
  -- The value itself is plain, so the label is not defined there.
  intro inValue
  have isLabel : target ∈ flat.value.labels := by
    rw [Expr.labels_eq_filterMap]
    exact List.mem_filterMap.mpr ⟨_, inValue, rfl⟩
  rw [Expr.labels_of_isPlain flat.value settled.value] at isLabel
  cases isLabel

theorem ofStmt_jumpsInside {statement : Stmt} {flat : List Stmt} {supply rest : TempSupply}
    (flattened : ofStmt statement supply = .ok (flat, rest))
    (targets : ∀ event ∈ statement.events, ∀ target ∈ event.targets,
      .label target ∈ statement.events) : JumpsInside flat :=
  ofExpr_jumpsInside (ofExpr_of_ofStmt flattened) (by simpa [Expr.events] using targets)

end TreeBackend.Flattening
