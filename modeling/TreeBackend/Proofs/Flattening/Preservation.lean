import Mathlib.Algebra.Ring.Int.Defs
import TreeBackend.Proofs.Flattening.Labels
import TreeBackend.Proofs.Flattening.Simulation
import TreeBackend.Proofs.IR.TreeRun

/-!
# Flattening preserves the meaning of straight trees

A straight tree whose operands leave each other's temporaries alone does the same
before and after flattening: if the tree runs, then the flat statements run, and
they leave the same machine and the same values of the temporaries of the tree.
Of a call nothing is assumed but that it leaves the addresses of labels alone.
-/

namespace TreeBackend.Machine

open IR Flattening Outcome

/-- Calls leave the addresses of all labels, the two pointers included, alone. -/
def KeepsLabels (call : Label → List Int → Exec Int) : Prop :=
  ∀ label values machine result machine',
    call label values machine = .ok result machine' → SameLabels machine machine'

/-- Runs flat statements one after the other, wherever they want to jump. -/
def executeAll (call : Label → List Int → Exec Int) : Temps → List Stmt → Exec Temps
  | temps, [] => return temps
  | temps, statement :: rest => do
      executeAll call (← execute call temps statement).temps rest

/-- Statements on their own, as code without jumps. -/
def Code.ofStatements (call : Label → List Int → Exec Int) (statements : List Stmt) : Code where
  statements := statements.toArray
  jumps := {}
  calls _ := call

theorem steady_of_areUndisturbed {operands : List Expr}
    (undisturbed : Expr.areUndisturbed operands = true) : Code.Steady operands := by
  induction operands with
  | nil => trivial
  | cons operand rest ih =>
      simp only [Expr.areUndisturbed, Bool.and_eq_true, spares_iff] at undisturbed
      exact ⟨fun temp ends => undisturbed.1.2 temp (Expr.mem_temps_of_lastTemp? ends),
        ih undisturbed.2⟩

section Simulation

variable {call : Label → List Int → Exec Int} {code : Code} {bound : Nat}

mutual

/-- What an expression evaluates to as a tree, its flattened form yields. -/
theorem yields_of_evalTree (keeps : KeepsLabels call) (calls : code.calls = fun _ => call) :
    (expression : Expr) → {temps temps' : Temps} → {machine machine' : Machine} → {value : Int} →
    Below bound expression → expression.isUndisturbed = true →
    evalTree call temps expression machine = .ok (value, temps') machine' →
    code.Yields bound expression temps machine fun result temps machine =>
      result = value ∧ AgreeBelow bound temps' temps ∧ machine = machine'
  | .const _, _, _, _, _, _, _, _, runs => by
      obtain ⟨rfl, rfl, rfl⟩ := evalTree_const_eq_ok.mp runs
      exact Code.yields_const fun _ agree => ⟨rfl, agree, rfl⟩
  | .name _, _, _, _, _, _, _, _, runs => by
      obtain ⟨known, rfl, rfl⟩ := evalTree_name_eq_ok.mp runs
      exact Code.yields_name known fun _ agree => ⟨rfl, agree, rfl⟩
  | .temp _, _, _, _, _, _, _, _, runs => by
      obtain ⟨assigned, rfl, rfl⟩ := evalTree_temp_eq_ok.mp runs
      exact Code.yields_temp assigned fun _ agree => ⟨rfl, agree, rfl⟩
  | .mem address, _, _, _, _, _, below, undisturbed, runs => by
      obtain ⟨place, addressRuns, found⟩ := evalTree_mem_eq_ok.mp runs
      refine Code.yields_mem ((yields_of_evalTree keeps calls address below undisturbed
        addressRuns).mono ?_)
      rintro _ temps _ ⟨rfl, agree, rfl⟩
      exact ⟨_, found, rfl, agree, rfl⟩
  | .binop _ left right, _, _, _, _, _, below, undisturbed, runs => by
      obtain ⟨a, middle, between, b, leftRuns, rightRuns, applied⟩ := evalTree_binop_eq_ok.mp runs
      simp only [Expr.isUndisturbed, Bool.and_eq_true, spares_iff] at undisturbed
      obtain ⟨⟨leftQuiet, rightQuiet⟩, spared⟩ := undisturbed
      refine Code.yields_binop (fun temp ends => spared temp (Expr.mem_temps_of_lastTemp? ends))
        ((yields_of_evalTree keeps calls left
          (fun temp member => below temp (List.mem_append_left _ member)) leftQuiet leftRuns).mono ?_)
      rintro _ temps _ ⟨rfl, agree, rfl⟩
      refine ((yields_of_evalTree keeps calls right
        (fun temp member => below temp (List.mem_append_right _ member)) rightQuiet
        rightRuns).congr agree).mono ?_
      rintro _ temps _ ⟨rfl, agree, rfl⟩
      exact ⟨_, applied, rfl, agree, rfl⟩
  | .call _ arguments, _, _, _, _, _, below, undisturbed, runs => by
      obtain ⟨values, between, argumentsRun, returns⟩ := evalTree_call_eq_ok.mp runs
      refine Code.yields_call (steady_of_areUndisturbed undisturbed)
        ((yieldsAll_of_evalTrees keeps calls arguments below undisturbed argumentsRun).mono ?_)
      rintro _ temps _ ⟨rfl, agree, rfl⟩
      refine ⟨_, _, .of_forall fun fuel => ?_, keeps _ _ _ _ _ returns, rfl, agree, rfl⟩
      rw [calls]
      exact returns
  | .eseq effect value, _, _, _, _, _, below, undisturbed, runs => by
      obtain ⟨middle, between, effectRuns, valueRuns⟩ := evalTree_eseq_eq_ok.mp runs
      rw [Expr.isUndisturbed, Bool.and_eq_true] at undisturbed
      refine Code.yields_eseq ((performs_of_runTree keeps calls effect
        (fun temp member => below temp (List.mem_append_left _ member)) undisturbed.1
        effectRuns).mono ?_)
      rintro temps _ ⟨agree, rfl⟩
      exact (yields_of_evalTree keeps calls value
        (fun temp member => below temp (List.mem_append_right _ member)) undisturbed.2
        valueRuns).congr agree

theorem yieldsAll_of_evalTrees (keeps : KeepsLabels call) (calls : code.calls = fun _ => call) :
    (expressions : List Expr) → {temps temps' : Temps} → {machine machine' : Machine} →
    {values : List Int} → (∀ temp ∈ Expr.tempsOfList expressions, temp.number < bound) →
    Expr.areUndisturbed expressions = true →
    evalTrees call temps expressions machine = .ok (values, temps') machine' →
    code.YieldsAll bound expressions temps machine fun results temps machine =>
      results = values ∧ AgreeBelow bound temps' temps ∧ machine = machine'
  | [], _, _, _, _, _, _, _, runs => by
      obtain ⟨rfl, rfl, rfl⟩ := evalTrees_nil_eq_ok.mp runs
      exact fun _ agree => ⟨rfl, agree, rfl⟩
  | expression :: rest, _, _, _, _, _, below, undisturbed, runs => by
      obtain ⟨head, middle, between, tail, headRuns, tailRuns, rfl⟩ :=
        evalTrees_cons_eq_ok.mp runs
      simp only [Expr.areUndisturbed, Bool.and_eq_true] at undisturbed
      refine (yields_of_evalTree keeps calls expression
        (fun temp member => below temp (List.mem_append_left _ member)) undisturbed.1.1
        headRuns).mono ?_
      rintro _ temps _ ⟨rfl, agree, rfl⟩
      refine ((yieldsAll_of_evalTrees keeps calls rest
        (fun temp member => below temp (List.mem_append_right _ member)) undisturbed.2
        tailRuns).congr agree).mono ?_
      rintro _ temps _ ⟨rfl, agree, rfl⟩
      exact ⟨rfl, agree, rfl⟩

/-- What a statement does as a tree, its flattened form performs. -/
theorem performs_of_runTree (keeps : KeepsLabels call) (calls : code.calls = fun _ => call) :
    (statement : Stmt) → {temps temps' : Temps} → {machine machine' : Machine} →
    (∀ temp ∈ statement.temps, temp.number < bound) → statement.isUndisturbed = true →
    runTree call temps statement machine = .ok temps' machine' →
    code.Performs bound statement temps machine fun temps machine =>
      AgreeBelow bound temps' temps ∧ machine = machine'
  | .seq items, _, _, _, _, below, undisturbed, runs =>
      Code.performs_seq (performsAll_of_runTrees keeps calls items below undisturbed runs)
  | .exp value, _, _, _, _, below, undisturbed, runs => by
      obtain ⟨_, valueRuns⟩ := runTree_exp_eq_ok.mp runs
      exact Code.performs_exp ((yields_of_evalTree keeps calls value below undisturbed
        valueRuns).mono fun _ _ _ holds => holds.2)
  | .move target source, _, _, _, _, below, undisturbed, runs => by
      rw [Stmt.isUndisturbed, Bool.and_eq_true] at undisturbed
      have sourceBelow : Below bound source := fun temp member =>
        below temp (List.mem_append_right _ member)
      exact performs_of_storeTree keeps calls target
        (fun temp member => below temp (List.mem_append_left _ member)) undisturbed.2
        (fun runs => yields_of_evalTree keeps calls source sourceBelow undisturbed.1 runs) runs
  | .label label, _, _, _, _, _, _, runs => by
      obtain ⟨rfl, rfl⟩ := pure_eq_ok.mp runs
      exact Code.performs_label fun _ agree => ⟨agree, rfl⟩
  | .jump _, _, _, _, _, _, _, runs | .cjump .., _, _, _, _, _, _, runs => by
      cases runs

theorem performsAll_of_runTrees (keeps : KeepsLabels call) (calls : code.calls = fun _ => call) :
    (statements : List Stmt) → {temps temps' : Temps} → {machine machine' : Machine} →
    (∀ temp ∈ Stmt.tempsOfList statements, temp.number < bound) →
    Stmt.areUndisturbed statements = true →
    runTrees call temps statements machine = .ok temps' machine' →
    code.PerformsAll bound statements temps machine fun temps machine =>
      AgreeBelow bound temps' temps ∧ machine = machine'
  | [], _, _, _, _, _, _, runs => by
      obtain ⟨rfl, rfl⟩ := runTrees_nil_eq_ok.mp runs
      exact fun _ agree => ⟨agree, rfl⟩
  | statement :: rest, _, _, _, _, below, undisturbed, runs => by
      obtain ⟨middle, between, firstRuns, restRuns⟩ := runTrees_cons_eq_ok.mp runs
      rw [Stmt.areUndisturbed, Bool.and_eq_true] at undisturbed
      refine (performs_of_runTree keeps calls statement
        (fun temp member => below temp (List.mem_append_left _ member)) undisturbed.1
        firstRuns).mono ?_
      rintro temps _ ⟨agree, rfl⟩
      exact (performsAll_of_runTrees keeps calls rest
        (fun temp member => below temp (List.mem_append_right _ member)) undisturbed.2
        restRuns).congr agree

theorem performs_of_storeTree (keeps : KeepsLabels call) (calls : code.calls = fun _ => call) :
    (target : Expr) → {source : Expr} → {temps temps' : Temps} → {machine machine' : Machine} →
    Below bound target → target.isUndisturbedTarget source.assigned = true →
    (∀ {temps temps' : Temps} {machine machine' : Machine} {value : Int},
      evalTree call temps source machine = .ok (value, temps') machine' →
      code.Yields bound source temps machine fun result temps machine =>
        result = value ∧ AgreeBelow bound temps' temps ∧ machine = machine') →
    storeTree call (fun temps => evalTree call temps source) temps target machine =
      .ok temps' machine' →
    code.Performs bound (.move target source) temps machine fun temps machine =>
      AgreeBelow bound temps' temps ∧ machine = machine'
  | .temp temp, _, _, _, _, _, _, _, sourceYields, runs => by
      obtain ⟨value, middle, sourceRuns, rfl⟩ := storeTree_temp_eq_ok.mp runs
      refine Code.performs_move_temp ((sourceYields sourceRuns).mono ?_)
      rintro _ temps _ ⟨rfl, agree, rfl⟩
      refine ⟨fun other isBelow => ?_, rfl⟩
      rw [Table.get?_insert, Table.get?_insert, agree other isBelow]
  | .mem address, _, _, _, _, _, below, undisturbed, sourceYields, runs => by
      obtain ⟨place, middle, between, value, last, addressRuns, sourceRuns, valid, rfl⟩ :=
        storeTree_mem_eq_ok.mp runs
      simp only [Expr.isUndisturbedTarget, Bool.and_eq_true, spares_iff] at undisturbed
      refine Code.performs_move_mem
        (fun temp ends => undisturbed.2 temp (Expr.mem_temps_of_lastTemp? ends))
        ((yields_of_evalTree keeps calls address below undisturbed.1 addressRuns).mono ?_)
      rintro _ temps _ ⟨rfl, agree, rfl⟩
      refine ((sourceYields sourceRuns).congr agree).mono ?_
      rintro _ temps _ ⟨rfl, agree, rfl⟩
      exact ⟨valid, agree, rfl⟩
  | .eseq effect value, _, _, _, _, _, below, undisturbed, sourceYields, runs => by
      obtain ⟨middle, between, effectRuns, storeRuns⟩ := storeTree_eseq_eq_ok.mp runs
      rw [Expr.isUndisturbedTarget, Bool.and_eq_true] at undisturbed
      refine Code.performs_move_eseq ((performs_of_runTree keeps calls effect
        (fun temp member => below temp (List.mem_append_left _ member)) undisturbed.1
        effectRuns).mono ?_)
      rintro temps _ ⟨agree, rfl⟩
      exact (performs_of_storeTree keeps calls value
        (fun temp member => below temp (List.mem_append_right _ member)) undisturbed.2 sourceYields
        storeRuns).congr agree
  | .const _, _, _, _, _, _, _, _, _, runs | .name _, _, _, _, _, _, _, _, _, runs
  | .binop .., _, _, _, _, _, _, _, _, runs | .call .., _, _, _, _, _, _, _, _, runs => by
      cases runs

end

end Simulation

/-! ### Flat statements without jumps -/

section Straight

variable {call : Label → List Int → Exec Int} {statements : List Stmt}

/-- Without labels a piece stands at its own beginning. -/
theorem placed_ofStatements (unlabelled : definedLabels statements = []) :
    (Code.ofStatements call statements).Placed 0 statements where
  statement found := by simpa [Code.ofStatements] using found
  target found := by
    have member := mem_definedLabels.mpr (List.mem_of_getElem? found)
    simp [unlabelled] at member

/-- Code without jumps runs its statements one after the other. -/
theorem executeAll_of_reaches {first last : Point}
    (reaches : (Code.ofStatements call statements).Reaches first last)
    (atEnd : last.position = statements.length) :
    executeAll call first.temps (statements.drop first.position) first.machine =
      .ok last.temps last.machine := by
  induction reaches using Relation.ReflTransGen.head_induction_on with
  | refl =>
      rw [atEnd, List.drop_length]
      rfl
  | head step _ ih =>
      cases step with
      | next found executes =>
          obtain ⟨fuel, result⟩ := executes.exists
          obtain ⟨isLess, rfl⟩ := List.getElem?_eq_some_iff.mp
            (by simpa [Code.ofStatements] using found)
          rw [List.drop_eq_getElem_cons isLess, executeAll, Outcome.bind_eq_ok]
          exact ⟨_, _, result, ih⟩
      | jump _ _ target => simp [Code.ofStatements] at target

/-- Flattening a straight statement whose operands leave each other's temporaries
alone preserves what it does. -/
theorem executeAll_ofStmt {statement : Stmt} {supply rest : TempSupply} {flat : List Stmt}
    {temps temps' : Temps} {machine machine' : Machine} (keeps : KeepsLabels call)
    (straight : statement.isStraight = true) (undisturbed : statement.isUndisturbed = true)
    (above : ∀ temp ∈ statement.temps, temp.number < supply.issued)
    (flattened : ofStmt statement supply = .ok (flat, rest))
    (runs : runTree call temps statement machine = .ok temps' machine') :
    ∃ flatTemps, executeAll call temps flat machine = .ok flatTemps machine' ∧
      ∀ temp ∈ statement.temps, flatTemps.get? temp = temps'.get? temp := by
  have unlabelled : definedLabels flat = [] := by
    rw [ofStmt_labels statement flattened, Stmt.labels_of_isStraight statement straight]
  have performs : (Code.ofStatements call flat).Performs supply.issued statement temps machine _ :=
    performs_of_runTree keeps rfl statement above undisturbed runs
  obtain ⟨flatTemps, _, executes, -, agree, rfl⟩ :=
    performs above flattened (Nat.le_refl _) (.refl _ temps)
  refine ⟨flatTemps, ?_, fun temp member => agree temp (above temp member)⟩
  have reaches := executes.reaches 0 (placed_ofStatements unlabelled)
  have result := executeAll_of_reaches reaches (by simp)
  simpa using result

/-- The first operand is read before the argument of the second one overwrites its
cell, in the tree as in the flat statements. -/
theorem executeAll_ofStmt_overwritten_operand :
    let call : Label → List Int → Exec Int := fun _ values => pure values.sum
    let statement : Stmt := .move (.temp ⟨0⟩) (.binop .sub (.mem (.const 4))
      (.call (.named "f") [.eseq (.move (.mem (.const 4)) (.const 7)) (.mem (.const 4))]))
    let machine : Machine :=
      { memory := .ofSize 16, routines := #[], random := ({} : Config).randomSource,
        framePointer := 12, stackPointer := 12 }
    KeepsLabels call ∧ statement.isStraight = true ∧ statement.isUndisturbed = true ∧
      (∀ temp ∈ statement.temps, temp.number < 1) ∧
      ∃ flat rest temps' machine', ofStmt statement ⟨1⟩ = .ok (flat, rest) ∧
        runTree call {} statement machine = .ok temps' machine' ∧
        temps'.get? ⟨0⟩ = some (-7) ∧
        ∃ flatTemps, executeAll call {} flat machine = .ok flatTemps machine' ∧
          ∀ temp ∈ statement.temps, flatTemps.get? temp = temps'.get? temp := by
  intro call statement machine
  have keeps : KeepsLabels call := by
    rintro _ _ _ _ _ returns
    obtain ⟨-, rfl⟩ := pure_eq_ok.mp returns
    exact .refl _
  have above : ∀ temp ∈ statement.temps, temp.number < 1 := by decide
  refine ⟨keeps, rfl, rfl, above, _, _, _, _, rfl, rfl, rfl, ?_⟩
  exact executeAll_ofStmt keeps rfl rfl above rfl rfl

end Straight

end TreeBackend.Machine
