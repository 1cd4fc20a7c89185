import TreeBackend.Proofs.Machine.FlatRun
import TreeBackend.Proofs.Machine.Harmless

/-!
# Which temporaries have values

Flat code reads a temporary only where it has a value, whichever way the run has
come there.  A piece of code leads from one set of temporaries to another if a run
that enters the piece with the first set is harmless, provided that going on behind
the piece with the second set is.  For a loop this is shown by induction on the
number of statements that are left.
-/

namespace TreeBackend.Machine

open Outcome
open IR (Expr Stmt Temp)

/-- The body of a function, with calls that are as long as the rest of the run. -/
def Code.ofBody (statements : Array Stmt) (jumps : Table Label Nat) : Code where
  statements := statements
  jumps := jumps
  calls fuel := callLabel fun statements jumps => runFrom fuel statements jumps 0 {}

def Assigns (temps : Temps) (assigned : Set Temp) : Prop :=
  ∀ temp ∈ assigned, (temps.get? temp).isSome = true

theorem Assigns.mono {temps : Temps} {assigned others : Set Temp} (assigns : Assigns temps assigned)
    (includes : others ⊆ assigned) : Assigns temps others :=
  fun temp member => assigns temp (includes member)

theorem Assigns.insert {temps : Temps} {assigned : Set Temp} (assigns : Assigns temps assigned)
    (temp : Temp) (value : Int) : Assigns (temps.insert temp value) (assigned ∪ {temp}) := by
  intro other member
  rw [Table.get?_insert]
  split
  · rfl
  · next different =>
      rcases member with member | same
      · exact assigns other member
      · exact (different same.symm).elim

namespace Code

variable {offer : Offer} {code : Code} {statements : Array Stmt} {jumps : Table Label Nat}

def SafeFrom (offer : Offer) (code : Code) (fuel position : Nat) (assigned : Set Temp) : Prop :=
  ∀ temps, Assigns temps assigned →
    IsHarmless offer (runFrom fuel code.statements code.jumps position temps)

def CallsSafely (offer : Offer) (code : Code) (fuel : Nat) : Prop :=
  ∀ less < fuel, ∀ label arguments, IsHarmless offer (code.calls less label arguments)

def Leads (offer : Offer) (code : Code) (before : Set Temp) (piece : List Stmt)
    (after : Set Temp) : Prop :=
  ∀ position, code.Placed position piece → ∀ fuel, code.CallsSafely offer fuel →
    (∀ less ≤ fuel, code.SafeFrom offer less (position + piece.length) after) →
    code.SafeFrom offer fuel position before

theorem CallsSafely.mono {fuel less : Nat} (safely : code.CallsSafely offer fuel)
    (le : less ≤ fuel) : code.CallsSafely offer less :=
  fun lesser lt => safely lesser (Nat.lt_of_lt_of_le lt le)

theorem safeFrom_zero {position : Nat} {assigned : Set Temp} :
    code.SafeFrom offer 0 position assigned :=
  fun _ _ machine offered => .inr ⟨_, machine, rfl, offered, rfl⟩

/-- A run takes one statement and goes on where it says. -/
theorem safeFrom_of_statement {fuel position : Nat} {statement : Stmt} {assigned : Set Temp}
    (found : (Code.ofBody statements jumps).statements[position]? = some statement)
    (harmless : ∀ temps, Assigns temps assigned →
      Harmless offer (execute ((Code.ofBody statements jumps).calls fuel) temps statement)
        fun next => match next.jump with
          | none => IsHarmless offer (runFrom fuel statements jumps (position + 1) next.temps)
          | some label => ∃ target, jumps.get? label = some target ∧
              IsHarmless offer (runFrom fuel statements jumps target next.temps)) :
    (Code.ofBody statements jumps).SafeFrom offer (fuel + 1) position assigned := by
  intro temps assigns
  have inBounds : statements[position]? = some statement := found
  change IsHarmless offer (runFrom (fuel + 1) statements jumps position temps)
  rw [runFrom, inBounds]
  refine (harmless temps assigns).bind fun next goesOn => ?_
  obtain ⟨jump, temps⟩ := next
  cases jump with
  | none => exact goesOn
  | some label =>
      obtain ⟨target, known, safe⟩ := goesOn
      dsimp only
      rw [known]
      exact safe

/-- A run that is at its end is harmless. -/
theorem safeFrom_end {fuel position : Nat} {assigned : Set Temp}
    (atEnd : statements[position]? = none) :
    (Code.ofBody statements jumps).SafeFrom offer fuel position assigned := by
  cases fuel with
  | zero => exact safeFrom_zero
  | succ fuel =>
      intro temps _
      change IsHarmless offer (runFrom (fuel + 1) statements jumps position temps)
      rw [runFrom, atEnd]
      exact .pure trivial

namespace Leads

variable {before between after : Set Temp} {first second : List Stmt}

theorem nil (includes : after ⊆ before) : code.Leads offer before [] after := by
  intro position _ fuel _ goesOn temps assigns
  exact goesOn fuel (Nat.le_refl _) temps (assigns.mono includes)

theorem append (left : code.Leads offer before first between)
    (right : code.Leads offer between second after) :
    code.Leads offer before (first ++ second) after := by
  intro position placed fuel calls goesOn
  refine left position placed.left fuel calls fun less le => ?_
  refine right _ placed.right less (calls.mono le) fun lesser le' => ?_
  rw [Nat.add_assoc, ← List.length_append]
  exact goesOn lesser (le'.trans le)

theorem weaken {smaller : Set Temp} (leads : code.Leads offer before first after)
    (includes : smaller ⊆ after) : code.Leads offer before first smaller := by
  have both := leads.append (.nil includes)
  rwa [List.append_nil] at both

/-- A statement that does not jump leads to what it leaves behind. -/
theorem single {statement : Stmt}
    (harmless : ∀ call, (∀ label arguments, IsHarmless offer (call label arguments)) →
      ∀ temps, Assigns temps before →
        Harmless offer (execute call temps statement) fun next =>
          next.jump = none ∧ Assigns next.temps after) :
    (Code.ofBody statements jumps).Leads offer before [statement] after := by
  intro position placed fuel calls goesOn
  cases fuel with
  | zero => exact safeFrom_zero
  | succ fuel =>
      refine safeFrom_of_statement placed.head fun temps assigns => ?_
      refine (harmless _ (calls fuel (Nat.lt_succ_self _)) temps assigns).mono ?_
      rintro ⟨_, temps⟩ ⟨rfl, assigns⟩
      exact goesOn fuel (Nat.le_succ _) temps assigns

theorem label (label : Label) :
    (Code.ofBody statements jumps).Leads offer before [.label label] before :=
  .single fun _ _ _ assigns => .pure ⟨rfl, assigns⟩

end Leads

/-! ### Expressions -/

def Evaluable (offer : Offer) (assigned : Set Temp) (value : Expr) : Prop :=
  ∀ call, (∀ label arguments, IsHarmless offer (call label arguments)) →
    ∀ temps, Assigns temps assigned → IsHarmless offer (eval call temps value)

namespace Evaluable

variable {assigned others : Set Temp}

theorem mono {value : Expr} (evaluable : Evaluable offer others value)
    (includes : others ⊆ assigned) : Evaluable offer assigned value :=
  fun call calls temps assigns => evaluable call calls temps (assigns.mono includes)

theorem const (value : Int) : Evaluable offer assigned (.const value) :=
  fun _ _ _ _ => .pure trivial

theorem name {label : Label} (known : label ∈ offer.known) :
    Evaluable offer assigned (.name label) := by
  intro call _ temps _
  rw [eval_name]
  exact harmless_labelAddress known

theorem temp {temp : Temp} (member : temp ∈ assigned) : Evaluable offer assigned (.temp temp) := by
  intro call _ temps assigns
  obtain ⟨value, found⟩ := Option.isSome_iff_exists.mp (assigns temp member)
  rw [eval_temp, readTemp, found]
  exact .pure trivial

theorem mem {address : Expr} (evaluable : Evaluable offer assigned address) :
    Evaluable offer assigned (.mem address) := by
  intro call calls temps assigns
  simp only [eval]
  exact (evaluable call calls temps assigns).bind fun _ _ => harmless_loadInt _

/-- Whatever goes wrong with an address goes wrong with the word there. -/
theorem of_mem {address : Expr} (evaluable : Evaluable offer assigned (.mem address)) :
    Evaluable offer assigned address := by
  intro call calls temps assigns machine offered
  have whole := evaluable call calls temps assigns machine offered
  simp only [eval] at whole
  cases outcome : eval call temps address machine with
  | error reason final =>
      have failed := bind_eq_error.mpr (.inl outcome : _ ∨ ∃ value middle,
        eval call temps address machine = .ok value middle ∧
          loadInt value middle = .error reason final)
      rw [failed] at whole
      rcases whole with ⟨_, _, done, -⟩ | ⟨_, _, same, offered, expected⟩
      · cases done
      · cases same
        exact .inr ⟨_, _, rfl, offered, expected⟩
  | ok place middle =>
      refine .inl ⟨place, middle, rfl, ?_, trivial⟩
      rcases whole with ⟨value, final, done, offered, -⟩ | ⟨reason, final, failed, offered, -⟩
      · obtain ⟨_, _, first, second⟩ := bind_eq_ok.mp done
        cases outcome.symm.trans first
        obtain ⟨-, rfl⟩ := loadInt_eq_ok.mp second
        exact offered
      · rcases bind_eq_error.mp failed with first | ⟨_, _, first, second⟩
        · cases outcome.symm.trans first
        · cases outcome.symm.trans first
          unfold loadInt at second
          split at second
          · cases second
          · cases second
            exact offered

theorem binop {operator : Operator} {left right : Expr} (first : Evaluable offer assigned left)
    (second : Evaluable offer assigned right) :
    Evaluable offer assigned (.binop operator left right) := by
  intro call calls temps assigns
  simp only [eval]
  exact (first call calls temps assigns).bind fun _ _ =>
    (second call calls temps assigns).bind fun _ _ => harmless_compute _ _ _

theorem call {label : Label} {arguments : List Expr}
    (evaluable : ∀ argument ∈ arguments, Evaluable offer assigned argument) :
    Evaluable offer assigned (.call label arguments) := by
  intro call calls temps assigns
  have all : IsHarmless offer (evalAll call temps arguments) := by
    induction arguments with
    | nil => exact .pure trivial
    | cons argument rest ih =>
        simp only [evalAll]
        refine (evaluable argument (by simp) call calls temps assigns).bind fun _ _ => ?_
        exact (ih fun other member => evaluable other (by simp [member])).bind
          fun _ _ => .pure trivial
  simp only [eval]
  exact all.bind fun _ _ => calls _ _

end Evaluable

namespace Leads

variable {assigned : Set Temp}

theorem exp {value : Expr} (evaluable : Evaluable offer assigned value) :
    (Code.ofBody statements jumps).Leads offer assigned [.exp value] assigned := by
  refine .single fun call calls temps assigns => ?_
  simp only [execute]
  exact (evaluable call calls temps assigns).bind fun _ _ => .pure ⟨rfl, assigns⟩

theorem moveTemp (temp : Temp) {value : Expr} (evaluable : Evaluable offer assigned value) :
    (Code.ofBody statements jumps).Leads offer assigned [.move (.temp temp) value]
      (assigned ∪ {temp}) := by
  refine .single fun call calls temps assigns => ?_
  simp only [execute]
  exact (evaluable call calls temps assigns).bind fun _ _ => .pure ⟨rfl, assigns.insert temp _⟩

theorem moveMem {address value : Expr} (first : Evaluable offer assigned address)
    (second : Evaluable offer assigned value) :
    (Code.ofBody statements jumps).Leads offer assigned [.move (.mem address) value] assigned := by
  refine .single fun call calls temps assigns => ?_
  simp only [execute]
  exact (first call calls temps assigns).bind fun _ _ =>
    (second call calls temps assigns).bind fun _ _ =>
    (harmless_storeInt _ _).bind fun _ _ => .pure ⟨rfl, assigns⟩

end Leads

/-! ### Jumps -/

/-- Going on from a position is harmless with at most the given fuel. -/
def SafeUpTo (offer : Offer) (code : Code) (fuel position : Nat) (assigned : Set Temp) : Prop :=
  ∀ less ≤ fuel, code.SafeFrom offer less position assigned

section Jumps

variable {fuel position target : Nat} {assigned : Set Temp}

theorem SafeUpTo.mono {less : Nat} (safe : code.SafeUpTo offer fuel position assigned)
    (le : less ≤ fuel) : code.SafeUpTo offer less position assigned :=
  fun lesser le' => safe lesser (le'.trans le)

theorem Leads.safeUpTo {before after : Set Temp} {piece : List Stmt}
    (leads : code.Leads offer before piece after) (placed : code.Placed position piece)
    (calls : code.CallsSafely offer fuel)
    (goesOn : code.SafeUpTo offer fuel (position + piece.length) after) :
    code.SafeUpTo offer fuel position before :=
  fun less le => leads position placed less (calls.mono le) (goesOn.mono le)

/-- A jump takes a statement, so its target may be less far. -/
theorem safeUpTo_jump {label : Label}
    (found : (Code.ofBody statements jumps).statements[position]? = some (.jump label))
    (known : (Code.ofBody statements jumps).jumps.get? label = some target)
    (safe : (Code.ofBody statements jumps).SafeUpTo offer fuel target assigned) :
    (Code.ofBody statements jumps).SafeUpTo offer (fuel + 1) position assigned := by
  intro less le
  cases less with
  | zero => exact safeFrom_zero
  | succ less =>
      refine safeFrom_of_statement found fun temps assigns => ?_
      simp only [execute]
      exact .pure ⟨target, known, safe less (Nat.le_of_succ_le_succ le) temps assigns⟩

theorem safeUpTo_cjump {condition : Expr} {whenTrue whenFalse : Label} {other : Nat}
    (found : (Code.ofBody statements jumps).statements[position]? =
      some (.cjump condition whenTrue whenFalse))
    (calls : (Code.ofBody statements jumps).CallsSafely offer fuel)
    (evaluable : Evaluable offer assigned condition)
    (known : (Code.ofBody statements jumps).jumps.get? whenTrue = some target)
    (otherKnown : (Code.ofBody statements jumps).jumps.get? whenFalse = some other)
    (safe : (Code.ofBody statements jumps).SafeUpTo offer fuel target assigned)
    (otherSafe : (Code.ofBody statements jumps).SafeUpTo offer fuel other assigned) :
    (Code.ofBody statements jumps).SafeUpTo offer fuel position assigned := by
  intro less le
  cases less with
  | zero => exact safeFrom_zero
  | succ less =>
      refine safeFrom_of_statement found fun temps assigns => ?_
      simp only [execute]
      refine (evaluable _ (calls less le) temps assigns).bind fun value _ => .pure ?_
      by_cases isZero : value = 0
      · rw [if_pos isZero]
        exact ⟨other, otherKnown, otherSafe less (Nat.le_of_succ_le le) temps assigns⟩
      · rw [if_neg isZero]
        exact ⟨target, known, safe less (Nat.le_of_succ_le le) temps assigns⟩

end Jumps

/-! ### Conditionals and loops -/

namespace Leads

variable {before tested after afterElse : Set Temp} {test thenBranch elseBranch body : List Stmt}
  {condition : Expr} {first second third : Label}

theorem ifThen (tests : (Code.ofBody statements jumps).Leads offer before test tested)
    (evaluable : Evaluable offer tested condition)
    (branch : (Code.ofBody statements jumps).Leads offer tested thenBranch after)
    (includes : tested ⊆ after) :
    (Code.ofBody statements jumps).Leads offer before
      (test ++ .cjump condition first third :: .label first ::
        (thenBranch ++ [.jump third, .label third])) tested := by
  refine tests.append fun position placed fuel calls goesOn => ?_
  have atBranch := placed.tail
  have atEnd := atBranch.tail.right
  have fromEnd := (Leads.label third).safeUpTo atEnd.tail calls
    fun less le => by simpa [Nat.add_assoc, Nat.add_comm, Nat.add_left_comm] using goesOn less le
  have fromJump := (safeUpTo_jump atEnd.head atEnd.tail.head_target fromEnd).mono (Nat.le_succ _)
  have fromBranch := (branch.weaken includes).safeUpTo atBranch.tail.left calls fromJump
  have fromLabel := (Leads.label first).safeUpTo atBranch.left calls fromBranch
  exact safeUpTo_cjump placed.head calls evaluable atBranch.head_target atEnd.tail.head_target
    fromLabel fromEnd fuel (Nat.le_refl _)

theorem ifThenElse (tests : (Code.ofBody statements jumps).Leads offer before test tested)
    (evaluable : Evaluable offer tested condition)
    (branch : (Code.ofBody statements jumps).Leads offer tested thenBranch after)
    (includes : tested ⊆ after)
    (otherBranch : (Code.ofBody statements jumps).Leads offer tested elseBranch afterElse)
    (includesElse : tested ⊆ afterElse) :
    (Code.ofBody statements jumps).Leads offer before
      (test ++ .cjump condition first second :: .label first ::
        (thenBranch ++ .jump third :: .label second ::
          (elseBranch ++ [.jump third, .label third]))) tested := by
  refine tests.append fun position placed fuel calls goesOn => ?_
  have atBranch := placed.tail
  have afterBranch := atBranch.tail.right
  have atOther := afterBranch.tail
  have atEnd := atOther.tail.right
  have fromEnd := (Leads.label third).safeUpTo atEnd.tail calls
    fun less le => by simpa [Nat.add_assoc, Nat.add_comm, Nat.add_left_comm] using goesOn less le
  have fromJump := (safeUpTo_jump atEnd.head atEnd.tail.head_target fromEnd).mono (Nat.le_succ _)
  have fromOther := (otherBranch.weaken includesElse).safeUpTo atOther.tail.left calls fromJump
  have fromOtherLabel := (Leads.label second).safeUpTo atOther.left calls fromOther
  have fromFirstJump :=
    (safeUpTo_jump afterBranch.head atEnd.tail.head_target fromEnd).mono (Nat.le_succ _)
  have fromBranch := (branch.weaken includes).safeUpTo atBranch.tail.left calls fromFirstJump
  have fromLabel := (Leads.label first).safeUpTo atBranch.left calls fromBranch
  exact safeUpTo_cjump placed.head calls evaluable atBranch.head_target atOther.head_target
    fromLabel fromOtherLabel fuel (Nat.le_refl _)

/-- A loop can be entered again with whatever statements are left. -/
theorem whileLoop (tests : (Code.ofBody statements jumps).Leads offer before test tested)
    (evaluable : Evaluable offer tested condition) (includesTest : before ⊆ tested)
    (branch : (Code.ofBody statements jumps).Leads offer tested body after)
    (includes : before ⊆ after) :
    (Code.ofBody statements jumps).Leads offer before
      (.label first :: (test ++ .cjump condition second third :: .label second ::
        (body ++ [.jump first, .label third]))) before := by
  intro position placed fuel calls goesOn
  have atTest := placed.tail
  have atCondition := atTest.right
  have atBody := atCondition.tail
  have atEnd := atBody.tail.right
  have fromEnd := ((Leads.label third).weaken includesTest).safeUpTo atEnd.tail calls
    fun less le => by simpa [Nat.add_assoc, Nat.add_comm, Nat.add_left_comm] using goesOn less le
  have loops : ∀ less ≤ fuel,
      (Code.ofBody statements jumps).SafeUpTo offer less position before := by
    intro less le
    induction less with
    | zero =>
        intro lesser le'
        rw [Nat.le_zero.mp le']
        exact safeFrom_zero
    | succ less ih =>
        have again := ih (Nat.le_of_succ_le le)
        have fewerCalls := calls.mono le
        have fromJump := safeUpTo_jump atEnd.head placed.head_target again
        have fromBody := (branch.weaken includes).safeUpTo atBody.tail.left fewerCalls fromJump
        have fromLabel := (Leads.label second).safeUpTo atBody.left fewerCalls fromBody
        have fromCondition := safeUpTo_cjump atCondition.head fewerCalls evaluable
          atBody.head_target atEnd.tail.head_target fromLabel (fromEnd.mono le)
        have fromTest := tests.safeUpTo atTest.left fewerCalls fromCondition
        exact (Leads.label first).safeUpTo placed.left fewerCalls fromTest
  exact loops fuel (Nat.le_refl _) fuel (Nat.le_refl _)

end Leads

end Code

end TreeBackend.Machine
