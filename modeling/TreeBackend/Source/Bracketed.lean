import TreeBackend.Source.Tree

/-!
# Programs in brackets

The form in which a program shows its tree: every node in brackets on one line,
with its kind, its number and its own data in front of its parts.
-/

namespace TreeBackend.Source

def UnaryOperator.word : UnaryOperator → String
  | .plus => "Plus"
  | .minus => "Minus"
  | .not => "Not"

def BinaryOperator.word : BinaryOperator → String
  | .compute .add => "Add"
  | .compute .sub => "Sub"
  | .compute .mul => "Mul"
  | .compute .div => "Div"
  | .compute .mod => "Mod"
  | .compute .and => "And"
  | .compute .or => "Or"
  | .compute .eq => "Eq"
  | .compute .neq => "NotEq"
  | .compute .lt => "Lt"
  | .compute .gt => "Gt"
  | .compute .leq => "LtEq"
  | .compute .geq => "GtEq"
  | .index => "Index"
  | .assign => "Assign"

def Node.tag (node : Node) (kind : String) : String := kind ++ "#" ++ toString node.id

/-- The words for a constant. -/
def Literal.bracketed (node : Node) : Literal → String
  | .int value => node.tag "int" ++ " " ++ toString value
  | .log truth => node.tag "log" ++ (if truth then " true" else " false")
  | .str text => node.tag "str" ++ " " ++ text

def Parameter.bracketed (parameter : Parameter) : String :=
  "(" ++ parameter.node.tag "param" ++ " " ++ parameter.name ++ ")"

mutual

def Expr.bracketed : Expr → String
  | .literal node value => "(" ++ value.bracketed node ++ ")"
  | .name node name => "(" ++ node.tag "name" ++ " " ++ name ++ ")"
  | .unary node operator operand =>
      "(" ++ node.tag "un" ++ " " ++ operator.word ++ " " ++ operand.bracketed ++ ")"
  | .binary node operator left right =>
      "(" ++ node.tag "bin" ++ " " ++ operator.word ++ " " ++ left.bracketed ++ " " ++
        right.bracketed ++ ")"
  | .call node name arguments =>
      "(" ++ node.tag "call" ++ " " ++ name ++ Expr.bracketedItems arguments ++ ")"
  | .block node items => "(" ++ node.tag "block" ++ Expr.bracketedItems items ++ ")"
  | .ifThen node condition thenBranch =>
      "(" ++ node.tag "if" ++ " " ++ condition.bracketed ++ " " ++ thenBranch.bracketed ++ ")"
  | .ifThenElse node condition thenBranch elseBranch =>
      "(" ++ node.tag "if" ++ " " ++ condition.bracketed ++ " " ++ thenBranch.bracketed ++ " " ++
        elseBranch.bracketed ++ ")"
  | .whileLoop node condition body =>
      "(" ++ node.tag "while" ++ " " ++ condition.bracketed ++ " " ++ body.bracketed ++ ")"
  | .forLoop node counter low high step body =>
      "(" ++ node.tag "for" ++ " " ++ counter.bracketed ++ " " ++ low.bracketed ++ " " ++
        high.bracketed ++ " " ++ step.bracketed ++ " " ++ body.bracketed ++ ")"
  | .whereIn node definitions inner =>
      "(" ++ node.tag "where" ++ Def.bracketedItems definitions ++ " " ++ inner.bracketed ++ ")"

def Expr.bracketedItems : List Expr → String
  | [] => ""
  | expression :: rest => " " ++ expression.bracketed ++ Expr.bracketedItems rest

def Def.bracketed : Def → String
  | .function node name parameters body =>
      "(" ++ node.tag "fun" ++ " " ++ name ++
        String.join (parameters.map fun parameter => " " ++ parameter.bracketed) ++ " " ++
        body.bracketed ++ ")"
  | .var node name => "(" ++ node.tag "var" ++ " " ++ name ++ ")"
  | .typeAlias node name => "(" ++ node.tag "type" ++ " " ++ name ++ ")"

def Def.bracketedItems : List Def → String
  | [] => ""
  | definition :: rest => " " ++ definition.bracketed ++ Def.bracketedItems rest

end

end TreeBackend.Source
