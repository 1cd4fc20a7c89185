import TreeBackend.Proofs.Correctness.Scopes
import TreeBackend.Proofs.Flattening.Branches

/-!
# What the shapes of lowered code do

If the code of the parts of a construct does what the evaluation of the parts does, then so
does the code of the construct.  There is one rule for each shape of code.
-/

namespace TreeBackend

open Source Lowering
open Machine (Code Temps AgreeBelow Keeps)
open Machine.Code

/-- What an expression has become does what an evaluation of the expression does. -/
def Achieves (table : FrameTable) (start : Machine) (live : List LiveCall) (code : Code)
    (bound : Nat) (world : World) (result : Option Int) (after : World) : Lowered → Prop
  | .expr expression => ∀ ⦃temps : Temps⦄ ⦃machine : Machine⦄,
      Represents table start live world machine →
        code.Yields bound expression temps machine fun value _ final =>
          (∀ found ∈ result, value = found) ∧ Represents table start live after final
  | .stmt statement => ∀ ⦃temps : Temps⦄ ⦃machine : Machine⦄,
      Represents table start live world machine →
        code.Performs bound statement temps machine fun _ final =>
          Represents table start live after final

section Shapes

variable {program : Program} {table : FrameTable} {chunks : List IR.Chunk} {start machine : Machine}
  {live : List LiveCall} {code : Code} {bound : Nat} {temps : Temps} {world middle after : World}
  {result : Option Int} {value test place : Int} {cell : Cell}
  {address expression left right : IR.Expr} {labels : Labels} {branch other : Lowered}

theorem Achieves.yields
    (achieves : Achieves table start live code bound world (some value) after (.expr expression))
    (represents : Represents table start live world machine) :
    code.Yields bound expression temps machine fun found _ final =>
      found = value ∧ Represents table start live after final :=
  (achieves represents).mono fun _ _ _ ⟨same, represents⟩ => ⟨same value rfl, represents⟩

theorem Achieves.toStmt {lowered : Lowered}
    (achieves : Achieves table start live code bound world result after lowered)
    (represents : Represents table start live world machine) :
    code.Performs bound lowered.toStmt temps machine fun _ final =>
      Represents table start live after final := by
  cases lowered with
  | expr expression =>
      exact performs_exp ((achieves represents).mono fun _ _ _ ⟨_, represents⟩ => represents)
  | stmt statement => exact achieves represents

/-! ### Cells -/

theorem yields_of_denotes {calls : List Call} {meets : Int → Temps → Machine → Prop}
    (plain : expression.isPlain = true) (noCalls : expression.calls = [])
    (denotes : Denotes start calls expression value)
    (keeps : Keeps start calls (keptWordsIn start calls) machine)
    (holds : ∀ temps', AgreeBelow bound temps temps' → meets value temps' machine) :
    code.Yields bound expression temps machine meets := by
  intro _ supply rest flat flattened _ initial agree
  rw [Flattening.ofExpr_of_isPlain_of_calls plain noCalls supply] at flattened
  obtain ⟨rfl, rfl⟩ := Prod.mk.inj (Except.ok.inj flattened)
  exact ⟨initial, machine, value, machine, .nil,
    ⟨.of_forall fun fuel => denotes _ _ machine keeps, .refl _⟩, .refl initial, holds initial agree⟩

theorem IsWordOf.yields_mem {meets : Int → Temps → Machine → Prop}
    (word : IsWordOf table start live cell address place)
    (represents : Represents table start live world machine)
    (assigned : world.cells.get? cell = some value)
    (holds : ∀ temps', AgreeBelow bound temps temps' → meets value temps' machine) :
    code.Yields bound (.mem address) temps machine meets :=
  Code.yields_mem (yields_of_denotes word.plain word.noCalls word.denotes represents.keeps
    fun temps' agree => ⟨value, represents.loadInt word.lies assigned, holds temps' agree⟩)

/-- A store to the word of a cell is an assignment. -/
theorem IsWordOf.performs_move (after : World) (furnished : Furnished program table chunks start)
    (isLive : IsLive program table start live) {meets : Temps → Machine → Prop}
    (word : IsWordOf table start live cell address place)
    (represents : Represents table start live world machine)
    (yields : ∀ {temps' : Temps}, AgreeBelow bound temps temps' →
      code.Yields bound expression temps' machine fun value temps' machine' =>
        Represents table start live after machine' ∧
          (Represents table start live { after with cells := after.cells.insert cell value }
            (machine'.writeWord place (.int value)) →
            meets temps' (machine'.writeWord place (.int value)))) :
    code.Performs bound (.move (.mem address) expression) temps machine meets := by
  refine performs_move_mem (by simp [word.noTemp]) (yields_of_denotes word.plain word.noCalls
    word.denotes represents.keeps fun temps' agree => (yields agree).mono ?_)
  intro value temps' machine' ⟨represents, holds⟩
  exact ⟨represents.keeps.isAddress (word.lies.isAddress furnished.toHosts isLive),
    holds (represents.assign furnished isLive word.lies value)⟩

theorem achieves_const :
    Achieves table start live code bound world (some value) world (.expr (.const value)) :=
  fun _ _ represents => yields_const fun _ _ => ⟨by simp, represents⟩

theorem IsWordOf.achieves (word : IsWordOf table start live cell address place)
    (assigned : world.cells.get? cell = some value) :
    Achieves table start live code bound world (some value) world (.expr (.mem address)) :=
  fun _ _ represents => word.yields_mem represents assigned fun _ _ => ⟨by simp, represents⟩

theorem achieves_assignment (furnished : Furnished program table chunks start)
    (isLive : IsLive program table start live)
    (word : IsWordOf table start live cell address place)
    (achieves : Achieves table start live code bound world (some value) after (.expr expression)) :
    Achieves table start live code bound world (some value)
      { after with cells := after.cells.insert cell value }
      (.expr (assignment (.mem address) expression)) := by
  intro temps machine represents
  refine yields_eseq (word.performs_move after furnished isLive represents fun _ =>
    (achieves.yields represents).mono ?_)
  rintro found temps' machine' ⟨rfl, represents⟩
  have isThere : (after.cells.insert cell found).get? cell = some found := by
    rw [Table.get?_insert, if_pos rfl]
  exact ⟨represents, fun assigned =>
    word.yields_mem assigned isThere fun _ _ => ⟨by simp, assigned⟩⟩

theorem achieves_assignmentOnce (furnished : Furnished program table chunks start)
    (isLive : IsLive program table start live)
    (word : IsWordOf table start live cell address place)
    (achieves : Achieves table start live code bound world (some value) after (.expr expression))
    {temp : IR.Temp} (below : temp.number < bound) (spared : temp ∉ expression.assigned) :
    Achieves table start live code bound world (some value)
      { after with cells := after.cells.insert cell value }
      (.expr (assignmentOnce address expression temp)) := by
  intro temps machine represents
  refine yields_eseq (performs_seq (performs_move_temp (yields_of_denotes word.plain word.noCalls
    word.denotes represents.keeps fun temps₁ _ => ?_)))
  have held : (temps₁.insert temp place).get? temp = some place := by
    rw [Table.get?_insert, if_pos rfl]
  refine performs_move_mem ?_ (yields_temp held fun temps₂ agree =>
    (achieves.yields represents).spared.mono ?_)
  · rintro _ ⟨rfl⟩
    exact spared
  · rintro found temps₃ machine₃ ⟨⟨rfl, represents⟩, kept⟩
    have assigned := represents.assign furnished isLive word.lies found
    have loaded := assigned.loadInt word.lies (by rw [Table.get?_insert, if_pos rfl])
    refine ⟨represents.keeps.isAddress (word.lies.isAddress furnished.toHosts isLive),
      fun temps₄ agree₄ => Code.yields_mem (yields_temp ?_ fun _ _ =>
        ⟨found, loaded, by simp, assigned⟩)⟩
    rw [agree₄ temp below, kept temp below spared, agree temp below, held]

/-! ### Operators -/

/-- Subtracting one and changing the sign negates a truth value. -/
theorem Word.wrap_negation (value : Int) :
    Word.wrap (Word.wrap (value - 1) * -1) = Word.wrap (1 - value) := by
  unfold Word.wrap
  rw [Int.bmod_mul_bmod]
  congr 1
  omega

theorem achieves_unary {operator : UnaryOperator} (noTemp : expression.lastTemp? = none)
    (achieves : Achieves table start live code bound world (some value) after (.expr expression)) :
    Achieves table start live code bound world (some (operator.apply value)) after
      (.expr (unary operator expression)) := by
  intro temps machine represents
  cases operator with
  | plus => exact achieves represents
  | minus =>
      refine yields_binop (by simp [IR.Expr.lastTemp?]) (yields_const fun _ _ =>
        (achieves.yields represents).mono ?_)
      rintro _ _ _ ⟨rfl, represents⟩
      exact ⟨_, rfl, by simp [UnaryOperator.apply], represents⟩
  | not =>
      refine yields_binop (by simp [IR.Expr.lastTemp?]) (yields_binop (by simp [noTemp])
        ((achieves.yields represents).mono ?_))
      rintro _ _ _ ⟨rfl, represents⟩
      refine yields_const fun _ _ => ⟨_, rfl, yields_const fun _ _ => ⟨_, rfl, ?_, represents⟩⟩
      rintro _ ⟨rfl⟩
      exact Word.wrap_negation _

theorem achieves_binop {operator : Operator} {leftValue rightValue : Int}
    (noTemp : left.lastTemp? = none)
    (first : Achieves table start live code bound world (some leftValue) middle (.expr left))
    (second : Achieves table start live code bound middle (some rightValue) after (.expr right))
    (applied : operator.apply leftValue rightValue = some value) :
    Achieves table start live code bound world (some value) after
      (.expr (.binop operator left right)) := by
  intro temps machine represents
  refine yields_binop (by simp [noTemp]) ((first.yields represents).mono ?_)
  rintro _ _ _ ⟨rfl, represents⟩
  refine (second.yields represents).mono ?_
  rintro _ _ _ ⟨rfl, represents⟩
  exact ⟨value, applied, by simp, represents⟩

/-! ### Conditionals and loops -/

theorem achieves_ifThen
    (condition : Achieves table start live code bound world (some test) middle (.expr expression))
    (goes : if test = 0 then after = middle else
      ∃ result, Achieves table start live code bound middle result after branch) :
    Achieves table start live code bound world none after
      (.stmt (ifThen labels expression branch.toStmt)) := by
  intro temps machine represents
  refine performs_ifThen ((condition.yields represents).mono ?_)
  rintro _ _ _ ⟨rfl, represents⟩
  split
  · next isZero =>
      rw [if_pos isZero] at goes
      exact goes ▸ represents
  · next notZero =>
      rw [if_neg notZero] at goes
      obtain ⟨_, branch⟩ := goes
      exact branch.toStmt represents

theorem achieves_ifThenElse
    (condition : Achieves table start live code bound world (some test) middle (.expr expression))
    (goes : ∃ result,
      if test = 0 then Achieves table start live code bound middle result after other
      else Achieves table start live code bound middle result after branch) :
    Achieves table start live code bound world none after
      (.stmt (ifThenElse labels expression branch.toStmt other.toStmt)) := by
  obtain ⟨_, goes⟩ := goes
  intro temps machine represents
  refine performs_ifThenElse ((condition.yields represents).mono ?_)
  rintro _ _ _ ⟨rfl, represents⟩
  split
  · next isZero =>
      rw [if_pos isZero] at goes
      exact goes.toStmt represents
  · next notZero =>
      rw [if_neg notZero] at goes
      exact goes.toStmt represents

/-- A loop does the rounds of its evaluation, if test and body do what theirs do and keep what
the loop needs of the temporaries. -/
theorem performs_repeatWhile {rounds : Nat} {condition : Evaluation Bool} {inner : Evaluation Unit}
    {statement : IR.Stmt} (holds : Temps → Prop)
    (tests : ∀ {world middle : World} {goesOn : Bool} {temps : Temps} {machine : Machine},
      condition world = some (goesOn, middle) → holds temps →
      Represents table start live world machine →
      code.Yields bound expression temps machine fun found temps' machine' =>
        (found = 0 ↔ goesOn = false) ∧ holds temps' ∧ Represents table start live middle machine')
    (does : ∀ {world middle : World} {temps : Temps} {machine : Machine},
      inner world = some ((), middle) → holds temps → Represents table start live world machine →
      code.Performs bound statement temps machine fun temps' machine' =>
        holds temps' ∧ Represents table start live middle machine')
    (repeats : Evaluation.repeatWhile rounds condition inner world = some ((), after))
    (initially : holds temps) (represents : Represents table start live world machine) :
    code.Performs bound (whileLoop labels expression statement) temps machine fun _ machine' =>
      Represents table start live after machine' := by
  -- The code goes back to its test as often as the evaluation does.
  induction rounds generalizing world temps machine with
  | zero => exact (Evaluation.stuck_ne_some repeats).elim
  | succ rounds ih =>
      obtain ⟨_, goesOn, middle, same, tested, goes⟩ := Evaluation.repeatWhile_eq_some.mp repeats
      obtain rfl := Nat.succ.inj same
      refine performs_whileLoop ((tests tested initially represents).mono ?_)
      rintro found temps' machine' ⟨isZero, kept, represents⟩
      cases goesOn with
      | false =>
          rw [if_pos (isZero.mpr rfl)]
          obtain rfl : after = middle := goes
          exact represents
      | true =>
          obtain ⟨between, body, again⟩ := goes
          rw [if_neg (by simp [isZero])]
          refine (does body kept represents).mono ?_
          rintro temps' machine' ⟨kept, represents⟩
          exact ih again kept represents

theorem achieves_whileLoop {rounds : Nat} {condition body : Evaluation (Option Int)}
    (tests : ∀ {world middle : World} {test : Option Int}, condition world = some (test, middle) →
      Achieves table start live code bound world test middle (.expr expression))
    (bodies : ∀ {world middle : World} {result : Option Int}, body world = some (result, middle) →
      Achieves table start live code bound world result middle branch)
    (repeats : Evaluation.repeatWhile rounds (do return (← Evaluation.given (← condition)) ≠ 0)
      (do let _ ← body) world = some ((), after)) :
    Achieves table start live code bound world none after
      (.stmt (whileLoop labels expression branch.toStmt)) := by
  intro temps machine represents
  refine performs_repeatWhile (fun _ => True) (fun tested _ represents => ?_)
    (fun done _ represents => ?_) repeats trivial represents
  · obtain ⟨value, _, tested, goesOn⟩ := Evaluation.bind_eq_some.mp tested
    obtain ⟨number, _, isGiven, goesOn⟩ := Evaluation.bind_eq_some.mp goesOn
    obtain ⟨rfl, rfl⟩ := Evaluation.given_eq_some.mp isGiven
    obtain ⟨rfl, rfl⟩ := Evaluation.pure_eq_some.mp goesOn
    refine ((tests tested).yields represents).mono ?_
    rintro _ _ _ ⟨rfl, represents⟩
    exact ⟨by simp, trivial, represents⟩
  · obtain ⟨_, _, does, same⟩ := Evaluation.bind_eq_some.mp done
    obtain ⟨-, rfl⟩ := Evaluation.pure_eq_some.mp same
    exact ((bodies does).toStmt represents).mono fun _ _ represents => ⟨trivial, represents⟩

/-- Both temporaries of a counting loop hold what was computed at its beginning. -/
def HoldsRange (limit stride : IR.Temp) (last step : Int) (temps : Temps) : Prop :=
  temps.get? limit = some last ∧ temps.get? stride = some step

/-- The code of a counting loop, whose two temporaries are assigned at its beginning only. -/
theorem achieves_forLoop (furnished : Furnished program table chunks start)
    (isLive : IsLive program table start live)
    (word : IsWordOf table start live cell address place) {limit stride : IR.Temp}
    {low high step : IR.Expr} {first last stepValue : Int} {afterLow afterHigh afterStep : World}
    {rounds : Nat} {body : Evaluation (Option Int)}
    (lows : Achieves table start live code bound world (some first) afterLow (.expr low))
    (highs : Achieves table start live code bound
      { afterLow with cells := afterLow.cells.insert cell first } (some last) afterHigh
      (.expr high))
    (steps : Achieves table start live code bound afterHigh (some stepValue) afterStep (.expr step))
    (bodies : ∀ {world middle : World} {result : Option Int}, body world = some (result, middle) →
      Achieves table start live code bound world result middle branch)
    (repeats : Evaluation.repeatWhile rounds
      (do return (← Evaluation.read cell) < last)
      (do
        let _ ← body
        Evaluation.assign cell (Word.wrap ((← Evaluation.read cell) + stepValue))) afterStep =
      some ((), after))
    (differ : limit ≠ stride) (limitBelow : limit.number < bound)
    (strideBelow : stride.number < bound) (limitSpared : limit ∉ step.assigned)
    (limitKept : limit ∉ branch.toStmt.assigned) (strideKept : stride ∉ branch.toStmt.assigned) :
    Achieves table start live code bound world none after
      (.stmt (forLoop labels limit stride (.mem address) low high step branch.toStmt)) := by
  have agrees {temps temps' : Temps} (holds : HoldsRange limit stride last stepValue temps)
      (agree : AgreeBelow bound temps temps') : HoldsRange limit stride last stepValue temps' :=
    ⟨(agree limit limitBelow).trans holds.1, (agree stride strideBelow).trans holds.2⟩
  intro temps machine represents
  refine performs_forLoop (performs_seq (word.performs_move afterLow furnished isLive represents
    fun _ => (lows.yields represents).mono ?_))
  rintro _ _ _ ⟨rfl, represents⟩
  refine ⟨represents, fun assigned => performs_move_temp ((highs.yields assigned).mono ?_)⟩
  rintro last temps₁ _ ⟨rfl, represents⟩
  refine performs_move_temp ((steps.yields represents).spared.mono ?_)
  rintro stepValue temps₂ _ ⟨⟨rfl, represents⟩, kept⟩
  -- The limit was assigned before the code of the stride ran, which spares it.
  have initially : HoldsRange limit stride last stepValue (temps₂.insert stride stepValue) := by
    refine ⟨?_, by rw [Table.get?_insert, if_pos rfl]⟩
    rw [Table.get?_insert, if_neg differ.symm, kept limit limitBelow limitSpared,
      Table.get?_insert, if_pos rfl]
  refine (performs_repeatWhile (HoldsRange limit stride last stepValue) ?_ ?_ repeats initially
    represents).mono fun _ _ represents _ _ => represents
  · intro world middle goesOn temps machine tested holds represents
    obtain ⟨value, _, read, same⟩ := Evaluation.bind_eq_some.mp tested
    obtain ⟨isThere, rfl⟩ := Evaluation.read_eq_some.mp read
    obtain ⟨rfl, rfl⟩ := Evaluation.pure_eq_some.mp same
    refine yields_binop (by simp [IR.Expr.lastTemp?]) (word.yields_mem represents isThere
      fun temps₃ agree₃ => yields_temp (agrees holds agree₃).1 fun temps₄ agree₄ => ?_)
    refine ⟨_, rfl, ?_, agrees (agrees holds agree₃) agree₄, represents⟩
    simp [Word.ofBool]
  · intro world middle temps machine done holds represents
    obtain ⟨_, _, does, counts⟩ := Evaluation.bind_eq_some.mp done
    obtain ⟨value, between, read, assigns⟩ := Evaluation.bind_eq_some.mp counts
    obtain ⟨isThere, rfl⟩ := Evaluation.read_eq_some.mp read
    obtain rfl := Evaluation.assign_eq_some.mp assigns
    refine performs_seq (((bodies does).toStmt represents).spared.mono ?_)
    rintro temps₃ _ ⟨represents, kept⟩
    have holds₃ : HoldsRange limit stride last stepValue temps₃ :=
      ⟨(kept limit limitBelow limitKept).trans holds.1,
        (kept stride strideBelow strideKept).trans holds.2⟩
    refine word.performs_move between furnished isLive represents fun agree₄ => ?_
    refine yields_binop (by simp [IR.Expr.lastTemp?]) (word.yields_mem represents isThere
      fun temps₅ agree₅ => yields_temp (agrees (agrees holds₃ agree₄) agree₅).2
        fun temps₆ agree₆ => ?_)
    refine ⟨_, rfl, represents, fun assigned temps₇ agree₇ => ⟨?_, assigned⟩⟩
    exact agrees (agrees (agrees (agrees holds₃ agree₄) agree₅) agree₆) agree₇

end Shapes

end TreeBackend
