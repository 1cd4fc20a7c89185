import TreeBackend.IR.Outline
import TreeBackend.Proofs.Text.Tokens

/-!
# Reading outlines

An outline shows the statement that it is the outline of, although nothing closes a node: no
two statements have the same outline, if their labels can be told apart.  First a text is read
as lines, then a line as the words of a node, and then, from the depths of the lines, how the
nodes nest.  A call and a sequence have any number of children; they end in front of the first
line that does not lie deeper.
-/

namespace TreeBackend.IR

open Text

/-! ### Lines -/

def OutlineLine.read (text : String) : OutlineLine where
  depth := (text.toList.takeWhile (· == ' ')).length / 2
  text := String.ofList (text.toList.dropWhile (· == ' '))

/-- The lines that a text shows. -/
def readOutline (text : String) : List OutlineLine :=
  ((List.splitOn '\n' text.toList).map String.ofList).map OutlineLine.read

theorem OutlineLine.read_render {line : OutlineLine} (row : IsRow line.text) :
    OutlineLine.read line.render = line := by
  obtain ⟨first, rest, same, noBlank⟩ := row.starts
  have noSpace : ¬(first == ' ') = true := by
    rintro isSpace
    rw [beq_iff_eq.mp isSpace] at noBlank
    exact absurd noBlank (by decide)
  have spaces : ∀ c ∈ List.replicate (2 * line.depth) ' ', (c == ' ') = true :=
    fun c member => beq_iff_eq.mpr (List.eq_of_mem_replicate member)
  obtain ⟨depth, text⟩ := line
  rw [OutlineLine.read, OutlineLine.render, String.toList_append, String.toList_ofList]
  dsimp only at same spaces ⊢
  rw [List.takeWhile_append_of_pos spaces, List.dropWhile_append_of_pos spaces, same,
    List.takeWhile_cons, List.dropWhile_cons, if_neg noSpace, if_neg noSpace, ← same]
  simp

theorem OutlineLine.newline_not_mem_render {line : OutlineLine} (row : IsRow line.text) :
    '\n' ∉ line.render.toList := by
  intro member
  rw [OutlineLine.render, String.toList_append, String.toList_ofList, List.mem_append] at member
  rcases member with inside | inText
  · exact absurd (List.eq_of_mem_replicate inside) (by decide)
  · exact absurd (row.within _ inText) (by decide)

theorem trimEnd_lines {outline : List OutlineLine} (rows : ∀ line ∈ outline, IsRow line.text)
    (some : outline ≠ []) :
    trimEnd ("\n".intercalate (outline.map OutlineLine.render)) =
      "\n".intercalate (outline.map OutlineLine.render) := by
  obtain ⟨lines, last, rfl⟩ := (List.eq_nil_or_concat' _).resolve_left some
  obtain ⟨front, ended⟩ :=
    exists_intercalate_concat "\n" (lines.map OutlineLine.render) last.render
  obtain ⟨inner, c, same, noBlank⟩ := (rows last (by simp)).ends
  refine trimEnd_eq_self ⟨front ++ List.replicate (2 * last.depth) ' ' ++ inner, c, ?_, noBlank⟩
  rw [List.map_append, List.map_singleton, ended, OutlineLine.render, String.toList_append,
    String.toList_ofList, same]
  simp

theorem readOutline_renderOutline {outline : List OutlineLine}
    (rows : ∀ line ∈ outline, IsRow line.text) (some : outline ≠ []) :
    readOutline (renderOutline outline) = outline := by
  rw [renderOutline, trimEnd_lines rows some, readOutline,
    splitOn_intercalate_texts "\n" '\n' rfl ?_ (by simpa using some), List.map_map]
  · conv => rhs; rw [← List.map_id outline]
    exact List.map_congr_left fun line member => OutlineLine.read_render (rows line member)
  · rintro _ member
    obtain ⟨line, isThere, rfl⟩ := List.mem_map.mp member
    exact OutlineLine.newline_not_mem_render (rows line isThere)

end TreeBackend.IR

namespace TreeBackend

open Text

/-! ### Labels -/

namespace Label

/-- Whether a name looks like the text of a numbered label, an `L` with digits behind it. -/
def looksNumbered (name : String) : Bool :=
  match name.toList with
  | 'L' :: digits => !digits.isEmpty && digits.all Char.isDigit
  | _ => false

/-- Whether a label can be read off an outline: its text is one word, and if it has a name, this
does not look like a numbered label. -/
def isReadable : Label → Bool
  | .named name => isWord name && !looksNumbered name
  | .anonymous _ => true

theorem looksNumbered_text (number : Nat) :
    looksNumbered (anonymous number).text = true := by
  have some := toString_ne_empty number
  have digits : (toString number).toList.all Char.isDigit = true :=
    List.all_eq_true.mpr fun _ member => isDigit_of_mem_toString member
  rw [looksNumbered, text, String.toList_append]
  simpa [some] using digits

theorem isWord_text {label : Label} (readable : label.isReadable = true) :
    isWord label.text = true := by
  cases label with
  | named name => exact (Bool.and_eq_true _ _ ▸ readable).1
  | anonymous number =>
      refine isWord_append rfl fun c member => isBlank_of_isNumeric ?_
      rw [isNumeric, isDigit_of_mem_toString member, Bool.or_true]

/-- Readable labels are told apart by their texts. -/
theorem text_inj {first second : Label} (firstReadable : first.isReadable = true)
    (secondReadable : second.isReadable = true) : first.text = second.text ↔ first = second := by
  refine ⟨fun same => ?_, fun same => by rw [same]⟩
  have notNumbered {name : String} (readable : (named name).isReadable = true) (number : Nat) :
      name ≠ (anonymous number).text := by
    rintro rfl
    simp [isReadable, looksNumbered_text] at readable
  cases first with
  | named name =>
      cases second with
      | named other => exact congrArg named same
      | anonymous number => exact absurd same (notNumbered firstReadable number)
  | anonymous number =>
      cases second with
      | named other => exact absurd same.symm (notNumbered secondReadable number)
      | anonymous other =>
          have digits := List.append_cancel_left
            (by simpa [text, ← String.toList_inj] using same :
              ['L'] ++ (toString number).toList = ['L'] ++ (toString other).toList)
          rw [toString_nat_inj.mp digits]

end Label

/-! ### Nodes -/

namespace IR

mutual

def Expr.mentioned : Expr → List Label
  | .const _ | .temp _ => []
  | .name label => [label]
  | .mem address => address.mentioned
  | .binop _ left right => left.mentioned ++ right.mentioned
  | .call label arguments => label :: Expr.mentionedByList arguments
  | .eseq effect value => effect.mentioned ++ value.mentioned

def Expr.mentionedByList : List Expr → List Label
  | [] => []
  | expression :: rest => expression.mentioned ++ Expr.mentionedByList rest

/-- The labels that occur in a statement. -/
def Stmt.mentioned : Stmt → List Label
  | .seq items => Stmt.mentionedByList items
  | .label label | .jump label => [label]
  | .cjump condition whenTrue whenFalse => whenTrue :: whenFalse :: condition.mentioned
  | .exp value => value.mentioned
  | .move target source => target.mentioned ++ source.mentioned

def Stmt.mentionedByList : List Stmt → List Label
  | [] => []
  | statement :: rest => statement.mentioned ++ Stmt.mentionedByList rest

end

/-- The first word in the line of an expression. -/
def Expr.keyword : Expr → String
  | .const _ => "CONST"
  | .name _ => "NAME"
  | .temp _ => "TEMP"
  | .mem _ => "MEM"
  | .binop .. => "BINOP"
  | .call .. => "CALL"
  | .eseq .. => "ESEQ"

/-- The other words in the line of an expression. -/
def Expr.details : Expr → List String
  | .const value => [toString value]
  | .name named | .call named _ => [named.text]
  | .temp ⟨number⟩ => ["t" ++ toString number]
  | .binop operator _ _ => [operator.mnemonic]
  | .mem _ | .eseq .. => []

def Expr.innerLines (depth : Nat) : Expr → List OutlineLine
  | .const _ | .name _ | .temp _ => []
  | .mem address => address.outline depth
  | .binop _ left right => left.outline depth ++ right.outline depth
  | .call _ arguments => Expr.outlines depth arguments
  | .eseq effect value => effect.outline depth ++ value.outline depth

/-- The first word in the line of a statement. -/
def Stmt.keyword : Stmt → String
  | .seq _ => "SEQ"
  | .label _ => "LABEL"
  | .jump _ => "JUMP"
  | .cjump .. => "CJUMP"
  | .exp _ => "EXP"
  | .move .. => "MOVE"

/-- The other words in the line of a statement. -/
def Stmt.details : Stmt → List String
  | .label place | .jump place => [place.text]
  | .cjump _ whenTrue whenFalse => [whenTrue.text, whenFalse.text]
  | .seq _ | .exp _ | .move .. => []

def Stmt.innerLines (depth : Nat) : Stmt → List OutlineLine
  | .label _ | .jump _ => []
  | .seq items => Stmt.outlines depth items
  | .cjump condition _ _ => condition.outline depth
  | .exp value => value.outline depth
  | .move target source => target.outline depth ++ source.outline depth

theorem Expr.outline_eq (depth : Nat) (expression : Expr) : expression.outline depth =
    ⟨depth, spaced (expression.keyword :: expression.details)⟩ ::
      expression.innerLines (depth + 1) := by
  cases expression <;>
    simp [Expr.outline, Expr.keyword, Expr.details, Expr.innerLines, spaced,
      ← String.toList_inj]

theorem Stmt.outline_eq (depth : Nat) (statement : Stmt) : statement.outline depth =
    ⟨depth, spaced (statement.keyword :: statement.details)⟩ ::
      statement.innerLines (depth + 1) := by
  cases statement <;>
    simp [Stmt.outline, Stmt.keyword, Stmt.details, Stmt.innerLines, spaced,
      ← String.toList_inj]

def AreReadable (labels : List Label) : Prop := ∀ label ∈ labels, label.isReadable = true

theorem areReadable_append {first second : List Label} :
    AreReadable (first ++ second) ↔ AreReadable first ∧ AreReadable second :=
  List.forall_mem_append

theorem areReadable_cons {label : Label} {labels : List Label} :
    AreReadable (label :: labels) ↔ label.isReadable = true ∧ AreReadable labels :=
  List.forall_mem_cons

theorem Expr.isWord_keyword (expression : Expr) : isWord expression.keyword = true := by
  cases expression <;> simp [Expr.keyword, isWord, isBlank, inRanges, blankRanges]

theorem Stmt.isWord_keyword (statement : Stmt) : isWord statement.keyword = true := by
  cases statement <;> simp [Stmt.keyword, isWord, isBlank, inRanges, blankRanges]

theorem isWord_mnemonic (operator : Operator) : isWord operator.mnemonic = true := by
  cases operator <;> simp [Operator.mnemonic, isWord, isBlank, inRanges, blankRanges]

theorem isWord_temp (number : Nat) : isWord ("t" ++ toString number) = true :=
  isWord_append (by simp [isWord, isBlank, inRanges, blankRanges]) fun _ member =>
    isBlank_of_isNumeric (by rw [isNumeric, isDigit_of_mem_toString member, Bool.or_true])

theorem Expr.areWords_details {expression : Expr} (readable : AreReadable expression.mentioned) :
    ∀ word ∈ expression.details, isWord word = true := by
  cases expression with
  | const value => exact List.forall_mem_singleton.mpr (isWord_toString value)
  | name label =>
      exact List.forall_mem_singleton.mpr (Label.isWord_text (readable label (.head _)))
  | temp drawn => exact List.forall_mem_singleton.mpr (isWord_temp drawn.number)
  | mem | eseq => exact List.forall_mem_nil _
  | binop operator => exact List.forall_mem_singleton.mpr (isWord_mnemonic operator)
  | call label =>
      exact List.forall_mem_singleton.mpr (Label.isWord_text (readable label (.head _)))

theorem Stmt.areWords_details {statement : Stmt} (readable : AreReadable statement.mentioned) :
    ∀ word ∈ statement.details, isWord word = true := by
  cases statement with
  | seq | exp | move => exact List.forall_mem_nil _
  | label place | jump place =>
      exact List.forall_mem_singleton.mpr (Label.isWord_text (readable place (.head _)))
  | cjump condition whenTrue whenFalse =>
      exact List.forall_mem_cons.mpr ⟨Label.isWord_text (readable whenTrue (.head _)),
        List.forall_mem_singleton.mpr
          (Label.isWord_text (readable whenFalse (.tail _ (.head _))))⟩

/-! ### Nesting -/

theorem line_cons_inj {depth : Nat} {first second : String}
    {firstDetails secondDetails : List String} {rest others : List OutlineLine}
    (firstWords : ∀ word ∈ first :: firstDetails, isWord word = true)
    (secondWords : ∀ word ∈ second :: secondDetails, isWord word = true)
    (same : (⟨depth, spaced (first :: firstDetails)⟩ : OutlineLine) :: rest =
      ⟨depth, spaced (second :: secondDetails)⟩ :: others) :
    first = second ∧ firstDetails = secondDetails ∧ rest = others := by
  obtain ⟨line, below⟩ := List.cons.inj same
  have words := (spaced_inj firstWords secondWords (List.cons_ne_nil _ _)
    (List.cons_ne_nil _ _)).mp (OutlineLine.mk.inj line).2
  exact ⟨(List.cons.inj words).1, (List.cons.inj words).2, below⟩

theorem Expr.head_inj {first second : Expr} {depth : Nat} {rest others : List OutlineLine}
    (firstReadable : AreReadable first.mentioned) (secondReadable : AreReadable second.mentioned)
    (same : first.outline depth ++ rest = second.outline depth ++ others) :
    first.keyword = second.keyword ∧ first.details = second.details ∧
      first.innerLines (depth + 1) ++ rest = second.innerLines (depth + 1) ++ others := by
  rw [Expr.outline_eq, Expr.outline_eq, List.cons_append, List.cons_append] at same
  exact line_cons_inj
    (List.forall_mem_cons.mpr ⟨isWord_keyword first, areWords_details firstReadable⟩)
    (List.forall_mem_cons.mpr ⟨isWord_keyword second, areWords_details secondReadable⟩) same

theorem Stmt.head_inj {first second : Stmt} {depth : Nat} {rest others : List OutlineLine}
    (firstReadable : AreReadable first.mentioned) (secondReadable : AreReadable second.mentioned)
    (same : first.outline depth ++ rest = second.outline depth ++ others) :
    first.keyword = second.keyword ∧ first.details = second.details ∧
      first.innerLines (depth + 1) ++ rest = second.innerLines (depth + 1) ++ others := by
  rw [Stmt.outline_eq, Stmt.outline_eq, List.cons_append, List.cons_append] at same
  exact line_cons_inj
    (List.forall_mem_cons.mpr ⟨isWord_keyword first, areWords_details firstReadable⟩)
    (List.forall_mem_cons.mpr ⟨isWord_keyword second, areWords_details secondReadable⟩) same

/-- Lines in front of which all nodes end that lie at a depth or deeper. -/
def EndsAt (depth : Nat) (lines : List OutlineLine) : Prop :=
  ∀ line ∈ lines.head?, line.depth < depth

theorem EndsAt.deeper {depth : Nat} {lines : List OutlineLine} (ends : EndsAt depth lines) :
    EndsAt (depth + 1) lines :=
  fun line member => Nat.lt_succ_of_lt (ends line member)

theorem endsAt_cons {depth : Nat} {line : OutlineLine} {lines : List OutlineLine} :
    EndsAt depth (line :: lines) ↔ line.depth < depth := by
  simp [EndsAt]

theorem endsAt_nil {depth : Nat} : EndsAt depth [] := by simp [EndsAt]

def StartsAtDepth {Node : Type} (outline : Nat → Node → List OutlineLine) : Prop :=
  ∀ depth node, ∃ text below, outline depth node = ⟨depth, text⟩ :: below

theorem StartsAtDepth.endsAt {Node : Type} {outline : Nat → Node → List OutlineLine}
    (starts : StartsAtDepth outline) (depth : Nat) (node : Node) (rest : List OutlineLine) :
    EndsAt (depth + 1) (outline depth node ++ rest) := by
  obtain ⟨text, below, same⟩ := starts depth node
  rw [same]
  exact endsAt_cons.mpr (Nat.lt_succ_self depth)

theorem StartsAtDepth.ne_of_endsAt {Node : Type} {outline : Nat → Node → List OutlineLine}
    (starts : StartsAtDepth outline) {depth : Nat} {lines : List OutlineLine}
    (ends : EndsAt depth lines) (node : Node) (rest : List OutlineLine) :
    lines ≠ outline depth node ++ rest := by
  obtain ⟨text, below, same⟩ := starts depth node
  rintro rfl
  rw [same] at ends
  exact absurd (endsAt_cons.mp ends) (Nat.lt_irrefl depth)

/-- The outline of a tree shows it, whatever lines follow where it ends: it is the outline of no
other tree with readable labels.  The margin is how much deeper than the tree a line has to lie to
belong to it. -/
def IsShown {Tree : Type} (outline : Nat → Tree → List OutlineLine)
    (mentioned : Tree → List Label) (margin : Nat) (tree : Tree) : Prop :=
  ∀ (other : Tree) (depth : Nat) (rest others : List OutlineLine),
    AreReadable (mentioned other) → EndsAt (depth + margin) rest →
    EndsAt (depth + margin) others →
    outline depth tree ++ rest = outline depth other ++ others → tree = other ∧ rest = others

/-- Nodes below each other are shown up to the first line that lies less deep. -/
theorem isShown_flatMap {Node : Type} {outline : Nat → Node → List OutlineLine}
    {mentioned : Node → List Label} (starts : StartsAtDepth outline) {nodes : List Node}
    (shown : ∀ node ∈ nodes, IsShown outline mentioned 1 node) :
    IsShown (fun depth nodes => nodes.flatMap (outline depth)) (·.flatMap mentioned) 0 nodes := by
  intro otherNodes depth rest others readable ends otherEnds same
  induction nodes generalizing otherNodes with
  | nil =>
      cases otherNodes with
      | nil => exact ⟨rfl, same⟩
      | cons other more =>
          simp only [List.flatMap_nil, List.nil_append, List.flatMap_cons,
            List.append_assoc] at same
          exact absurd same (starts.ne_of_endsAt ends other _)
  | cons node nodes ih =>
      cases otherNodes with
      | nil =>
          simp only [List.flatMap_nil, List.nil_append, List.flatMap_cons,
            List.append_assoc] at same
          exact absurd same.symm (starts.ne_of_endsAt otherEnds node _)
      | cons other more =>
          simp only [List.flatMap_cons, List.append_assoc] at same readable
          obtain ⟨otherReadable, moreReadable⟩ := areReadable_append.mp readable
          -- behind a node there is another one, or what follows them all
          have ended {below : List OutlineLine} (ends : EndsAt depth below) (nodes : List Node) :
              EndsAt (depth + 1) (nodes.flatMap (outline depth) ++ below) := by
            cases nodes with
            | nil => exact ends.deeper
            | cons next nodes =>
                rw [List.flatMap_cons, List.append_assoc]
                exact starts.endsAt depth next _
          obtain ⟨rfl, below⟩ := shown node (.head _) other depth _ _ otherReadable
            (ended ends nodes) (ended otherEnds more) same
          obtain ⟨rfl, behind⟩ :=
            ih (fun node member => shown node (.tail _ member)) more moreReadable below
          exact ⟨rfl, behind⟩

theorem IsShown.below {First Second : Type} {firstOutline : Nat → First → List OutlineLine}
    {secondOutline : Nat → Second → List OutlineLine} {firstMentioned : First → List Label}
    {secondMentioned : Second → List Label} {first otherFirst : First}
    {second otherSecond : Second} {depth : Nat} {rest others : List OutlineLine}
    (firstShown : IsShown firstOutline firstMentioned 1 first)
    (secondShown : IsShown secondOutline secondMentioned 1 second)
    (starts : StartsAtDepth secondOutline)
    (readable : AreReadable (firstMentioned otherFirst ++ secondMentioned otherSecond))
    (ends : EndsAt (depth + 1) rest) (otherEnds : EndsAt (depth + 1) others)
    (same : firstOutline depth first ++ secondOutline depth second ++ rest =
      firstOutline depth otherFirst ++ secondOutline depth otherSecond ++ others) :
    first = otherFirst ∧ second = otherSecond ∧ rest = others := by
  obtain ⟨firstReadable, secondReadable⟩ := areReadable_append.mp readable
  rw [List.append_assoc, List.append_assoc] at same
  obtain ⟨sameFirst, below⟩ := firstShown otherFirst depth _ _ firstReadable
    (starts.endsAt depth second rest) (starts.endsAt depth otherSecond others) same
  exact ⟨sameFirst, secondShown otherSecond depth rest others secondReadable ends otherEnds below⟩

theorem Expr.startsAtDepth : StartsAtDepth Expr.outline :=
  fun depth expression => ⟨_, _, Expr.outline_eq depth expression⟩

theorem Stmt.startsAtDepth : StartsAtDepth Stmt.outline :=
  fun depth statement => ⟨_, _, Stmt.outline_eq depth statement⟩

theorem Expr.outlines_eq_flatMap :
    Expr.outlines = fun depth expressions => expressions.flatMap (Expr.outline depth) := by
  funext depth expressions
  induction expressions with
  | nil => rfl
  | cons expression rest ih => rw [Expr.outlines, ih, List.flatMap_cons]

theorem Stmt.outlines_eq_flatMap :
    Stmt.outlines = fun depth statements => statements.flatMap (Stmt.outline depth) := by
  funext depth statements
  induction statements with
  | nil => rfl
  | cons statement rest ih => rw [Stmt.outlines, ih, List.flatMap_cons]

theorem Expr.mentionedByList_eq_flatMap :
    Expr.mentionedByList = fun expressions => expressions.flatMap Expr.mentioned := by
  funext expressions
  induction expressions with
  | nil => rfl
  | cons expression rest ih => rw [Expr.mentionedByList, ih, List.flatMap_cons]

theorem Stmt.mentionedByList_eq_flatMap :
    Stmt.mentionedByList = fun statements => statements.flatMap Stmt.mentioned := by
  funext statements
  induction statements with
  | nil => rfl
  | cons statement rest ih => rw [Stmt.mentionedByList, ih, List.flatMap_cons]

theorem Expr.isShown_outlines {expressions : List Expr}
    (shown : ∀ expression ∈ expressions, IsShown Expr.outline Expr.mentioned 1 expression) :
    IsShown Expr.outlines Expr.mentionedByList 0 expressions := by
  rw [Expr.outlines_eq_flatMap, Expr.mentionedByList_eq_flatMap]
  exact isShown_flatMap Expr.startsAtDepth shown

theorem Stmt.isShown_outlines {statements : List Stmt}
    (shown : ∀ statement ∈ statements, IsShown Stmt.outline Stmt.mentioned 1 statement) :
    IsShown Stmt.outlines Stmt.mentionedByList 0 statements := by
  rw [Stmt.outlines_eq_flatMap, Stmt.mentionedByList_eq_flatMap]
  exact isShown_flatMap Stmt.startsAtDepth shown

theorem mnemonic_inj {first second : Operator} (same : first.mnemonic = second.mnemonic) :
    first = second := by
  have read := Operator.ofMnemonic?_mnemonic first
  rw [same, Operator.ofMnemonic?_mnemonic] at read
  exact (Option.some.inj read).symm

theorem text_inj_of_areReadable {first second : Label} {labels others : List Label}
    (readable : AreReadable (first :: labels)) (otherReadable : AreReadable (second :: others))
    (same : first.text = second.text) : first = second :=
  (Label.text_inj (readable first (.head _)) (otherReadable second (.head _))).mp same

theorem temp_inj {first second : Temp}
    (same : "t" ++ toString first.number = "t" ++ toString second.number) : first = second := by
  have numerals : (toString first.number).toList = (toString second.number).toList := by
    simpa [← String.toList_inj] using same
  obtain ⟨number⟩ := first
  exact congrArg Temp.mk (toString_nat_inj.mp numerals)

mutual

theorem Expr.isShown (expression : Expr) (readable : AreReadable expression.mentioned) :
    IsShown Expr.outline Expr.mentioned 1 expression := by
  intro other depth rest others otherReadable ends otherEnds same
  obtain ⟨keyword, details, inner⟩ := Expr.head_inj readable otherReadable same
  -- the keyword tells the kind of node, the details its words, and the lines below its children
  match expression with
  | .const value =>
      cases other with
      | const otherValue =>
          have values := toString_int_inj.mp (congrArg String.toList (List.cons.inj details).1)
          exact ⟨by rw [values], inner⟩
      | _ => simp [Expr.keyword] at keyword
  | .name label =>
      cases other with
      | name otherLabel =>
          have labels := text_inj_of_areReadable readable otherReadable (List.cons.inj details).1
          exact ⟨by rw [labels], inner⟩
      | _ => simp [Expr.keyword] at keyword
  | .temp drawn =>
      cases other with
      | temp otherDrawn =>
          exact ⟨congrArg Expr.temp (temp_inj (List.cons.inj details).1), inner⟩
      | _ => simp [Expr.keyword] at keyword
  | .mem address =>
      cases other with
      | mem otherAddress =>
          obtain ⟨rfl, below⟩ := Expr.isShown address readable otherAddress _ _ _ otherReadable
            ends.deeper otherEnds.deeper inner
          exact ⟨rfl, below⟩
      | _ => simp [Expr.keyword] at keyword
  | .binop operator left right =>
      cases other with
      | binop otherOperator otherLeft otherRight =>
          have operators := mnemonic_inj (List.cons.inj details).1
          obtain ⟨leftReadable, rightReadable⟩ := areReadable_append.mp readable
          obtain ⟨rfl, rfl, below⟩ := IsShown.below (Expr.isShown left leftReadable)
            (Expr.isShown right rightReadable) Expr.startsAtDepth otherReadable ends.deeper
            otherEnds.deeper inner
          exact ⟨by rw [operators], below⟩
      | _ => simp [Expr.keyword] at keyword
  | .call label arguments =>
      cases other with
      | call otherLabel otherArguments =>
          have labels := text_inj_of_areReadable readable otherReadable (List.cons.inj details).1
          obtain ⟨rfl, below⟩ := Expr.isShown_outlines
            (Expr.areShown arguments (areReadable_cons.mp readable).2) otherArguments _ _ _
            (areReadable_cons.mp otherReadable).2 ends otherEnds inner
          exact ⟨by rw [labels], below⟩
      | _ => simp [Expr.keyword] at keyword
  | .eseq effect value =>
      cases other with
      | eseq otherEffect otherValue =>
          obtain ⟨effectReadable, valueReadable⟩ := areReadable_append.mp readable
          obtain ⟨rfl, rfl, below⟩ := IsShown.below (Stmt.isShown effect effectReadable)
            (Expr.isShown value valueReadable) Expr.startsAtDepth otherReadable ends.deeper
            otherEnds.deeper inner
          exact ⟨rfl, below⟩
      | _ => simp [Expr.keyword] at keyword

theorem Expr.areShown : (expressions : List Expr) →
    AreReadable (Expr.mentionedByList expressions) →
    ∀ expression ∈ expressions, IsShown Expr.outline Expr.mentioned 1 expression
  | [], _ => List.forall_mem_nil _
  | expression :: rest, readable =>
      List.forall_mem_cons.mpr ⟨Expr.isShown expression (areReadable_append.mp readable).1,
        Expr.areShown rest (areReadable_append.mp readable).2⟩

theorem Stmt.isShown (statement : Stmt) (readable : AreReadable statement.mentioned) :
    IsShown Stmt.outline Stmt.mentioned 1 statement := by
  intro other depth rest others otherReadable ends otherEnds same
  obtain ⟨keyword, details, inner⟩ := Stmt.head_inj readable otherReadable same
  match statement with
  | .seq items =>
      cases other with
      | seq otherItems =>
          obtain ⟨rfl, below⟩ := Stmt.isShown_outlines (Stmt.areShown items readable) otherItems
            _ _ _ otherReadable ends otherEnds inner
          exact ⟨rfl, below⟩
      | _ => simp [Stmt.keyword] at keyword
  | .label place =>
      cases other with
      | label otherPlace =>
          have labels := text_inj_of_areReadable readable otherReadable (List.cons.inj details).1
          exact ⟨by rw [labels], inner⟩
      | _ => simp [Stmt.keyword] at keyword
  | .jump target =>
      cases other with
      | jump otherTarget =>
          have labels := text_inj_of_areReadable readable otherReadable (List.cons.inj details).1
          exact ⟨by rw [labels], inner⟩
      | _ => simp [Stmt.keyword] at keyword
  | .cjump condition whenTrue whenFalse =>
      cases other with
      | cjump otherCondition otherWhenTrue otherWhenFalse =>
          obtain ⟨trueText, details⟩ := List.cons.inj details
          have whenTrues := text_inj_of_areReadable readable otherReadable trueText
          have restReadable := (areReadable_cons.mp readable).2
          have otherRestReadable := (areReadable_cons.mp otherReadable).2
          have whenFalses :=
            text_inj_of_areReadable restReadable otherRestReadable (List.cons.inj details).1
          obtain ⟨rfl, below⟩ := Expr.isShown condition (areReadable_cons.mp restReadable).2
            otherCondition _ _ _ (areReadable_cons.mp otherRestReadable).2 ends.deeper
            otherEnds.deeper inner
          exact ⟨by rw [whenTrues, whenFalses], below⟩
      | _ => simp [Stmt.keyword] at keyword
  | .exp value =>
      cases other with
      | exp otherValue =>
          obtain ⟨rfl, below⟩ := Expr.isShown value readable otherValue _ _ _ otherReadable
            ends.deeper otherEnds.deeper inner
          exact ⟨rfl, below⟩
      | _ => simp [Stmt.keyword] at keyword
  | .move target source =>
      cases other with
      | move otherTarget otherSource =>
          obtain ⟨targetReadable, sourceReadable⟩ := areReadable_append.mp readable
          obtain ⟨rfl, rfl, below⟩ := IsShown.below (Expr.isShown target targetReadable)
            (Expr.isShown source sourceReadable) Expr.startsAtDepth otherReadable ends.deeper
            otherEnds.deeper inner
          exact ⟨rfl, below⟩
      | _ => simp [Stmt.keyword] at keyword

theorem Stmt.areShown : (statements : List Stmt) →
    AreReadable (Stmt.mentionedByList statements) →
    ∀ statement ∈ statements, IsShown Stmt.outline Stmt.mentioned 1 statement
  | [], _ => List.forall_mem_nil _
  | statement :: rest, readable =>
      List.forall_mem_cons.mpr ⟨Stmt.isShown statement (areReadable_append.mp readable).1,
        Stmt.areShown rest (areReadable_append.mp readable).2⟩

end

/-! ### Texts -/

/-- The lines of an outline can be read. -/
def AreRows (outline : List OutlineLine) : Prop := ∀ line ∈ outline, IsRow line.text

theorem areRows_append {first second : List OutlineLine} :
    AreRows (first ++ second) ↔ AreRows first ∧ AreRows second :=
  List.forall_mem_append

theorem areRows_cons {keyword : String} {details : List String} {depth : Nat}
    {below : List OutlineLine} (isWord : Text.isWord keyword = true)
    (areWords : ∀ word ∈ details, Text.isWord word = true) (rows : AreRows below) :
    AreRows (⟨depth, spaced (keyword :: details)⟩ :: below) :=
  List.forall_mem_cons.mpr ⟨isRow_spaced isWord areWords, rows⟩

mutual

theorem Expr.areRows_outline (depth : Nat) (expression : Expr)
    (readable : AreReadable expression.mentioned) : AreRows (expression.outline depth) := by
  rw [Expr.outline_eq]
  refine areRows_cons expression.isWord_keyword (Expr.areWords_details readable) ?_
  match expression with
  | .const _ | .name _ | .temp _ => exact List.forall_mem_nil _
  | .mem address => exact Expr.areRows_outline (depth + 1) address readable
  | .binop _ left right =>
      obtain ⟨leftReadable, rightReadable⟩ := areReadable_append.mp readable
      exact areRows_append.mpr ⟨Expr.areRows_outline (depth + 1) left leftReadable,
        Expr.areRows_outline (depth + 1) right rightReadable⟩
  | .call _ arguments =>
      exact Expr.areRows_outlines (depth + 1) arguments (areReadable_cons.mp readable).2
  | .eseq effect value =>
      obtain ⟨effectReadable, valueReadable⟩ := areReadable_append.mp readable
      exact areRows_append.mpr ⟨Stmt.areRows_outline (depth + 1) effect effectReadable,
        Expr.areRows_outline (depth + 1) value valueReadable⟩

theorem Expr.areRows_outlines (depth : Nat) : (expressions : List Expr) →
    AreReadable (Expr.mentionedByList expressions) → AreRows (Expr.outlines depth expressions)
  | [], _ => List.forall_mem_nil _
  | expression :: rest, readable =>
      areRows_append.mpr
        ⟨Expr.areRows_outline depth expression (areReadable_append.mp readable).1,
          Expr.areRows_outlines depth rest (areReadable_append.mp readable).2⟩

theorem Stmt.areRows_outline (depth : Nat) (statement : Stmt)
    (readable : AreReadable statement.mentioned) : AreRows (statement.outline depth) := by
  rw [Stmt.outline_eq]
  refine areRows_cons statement.isWord_keyword (Stmt.areWords_details readable) ?_
  match statement with
  | .label _ | .jump _ => exact List.forall_mem_nil _
  | .seq items => exact Stmt.areRows_outlines (depth + 1) items readable
  | .cjump condition whenTrue whenFalse =>
      exact Expr.areRows_outline (depth + 1) condition
        (areReadable_cons.mp (areReadable_cons.mp readable).2).2
  | .exp value => exact Expr.areRows_outline (depth + 1) value readable
  | .move target source =>
      obtain ⟨targetReadable, sourceReadable⟩ := areReadable_append.mp readable
      exact areRows_append.mpr ⟨Expr.areRows_outline (depth + 1) target targetReadable,
        Expr.areRows_outline (depth + 1) source sourceReadable⟩

theorem Stmt.areRows_outlines (depth : Nat) : (statements : List Stmt) →
    AreReadable (Stmt.mentionedByList statements) → AreRows (Stmt.outlines depth statements)
  | [], _ => List.forall_mem_nil _
  | statement :: rest, readable =>
      areRows_append.mpr
        ⟨Stmt.areRows_outline depth statement (areReadable_append.mp readable).1,
          Stmt.areRows_outlines depth rest (areReadable_append.mp readable).2⟩

end

/-- A statement whose labels are readable can be read off its text. -/
theorem Stmt.readOutline_text {statement : Stmt} (readable : AreReadable statement.mentioned) :
    readOutline statement.text = statement.outline 0 :=
  readOutline_renderOutline (Stmt.areRows_outline 0 statement readable)
    (by rw [Stmt.outline_eq]; exact List.cons_ne_nil _ _)

/-- Two statements with readable labels have the same text only if they are the same: the
indentation shows how the nodes nest, although nothing closes a node. -/
theorem Stmt.text_eq_iff_of_areReadable {first second : Stmt}
    (firstReadable : AreReadable first.mentioned) (secondReadable : AreReadable second.mentioned) :
    first.text = second.text ↔ first = second := by
  refine ⟨fun same => ?_, fun same => by rw [same]⟩
  have outlines : first.outline 0 ++ [] = second.outline 0 ++ [] := by
    rw [List.append_nil, List.append_nil, ← Stmt.readOutline_text firstReadable,
      ← Stmt.readOutline_text secondReadable, same]
  exact (Stmt.isShown first firstReadable second 0 [] [] secondReadable endsAt_nil endsAt_nil
    outlines).1

/-- The calls `f(g(1))` and `f(g(), 1)` have the same nodes in the same order, but different
texts. -/
theorem Stmt.text_exp_call_ne :
    (Stmt.exp (.call (.named "f") [.call (.named "g") [.const 1]])).text ≠
      (Stmt.exp (.call (.named "f") [.call (.named "g") [], .const 1])).text := by
  have readable : AreReadable [Label.named "f", Label.named "g"] := by
    simp [AreReadable, Label.isReadable, Label.looksNumbered, isWord, isBlank, inRanges,
      blankRanges]
  rw [ne_eq, Stmt.text_eq_iff_of_areReadable]
  · simp
  · exact readable
  · exact readable

end IR

end TreeBackend
